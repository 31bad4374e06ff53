/-
Programs one after the other.

While a program runs the global scope stays where it was, and when it has ended the scope in which its last statement ended
is the global one. So a program can be cut in two anywhere: running its statements is running those in front of the cut and
then, unless they failed, those behind it (`Machine.exec_append`). The one thing that can tell the difference is a host
operation that reads the global scope while statements behind the cut run: in one case it sees the scope where the whole
program started, in the other the one where the part in front of the cut ended (`Machine.exec_append_lookUp`).

That nothing else sees the global scope is a case of the theorem that evaluation treats scopes alike: machines that differ
in their global scope correspond (`Machine.correspondence_moveGlobal`).
-/
import Ouroboros.Proofs.Execution.Matching
import Ouroboros.Proofs.Execution.Outside
import Ouroboros.Proofs.Execution.Termination
import Ouroboros.Proofs.Execution.Traversal

namespace Ouroboros

theorem Action.bind_eq_ok {σ α β : Type} {x : Action σ α} {k : α → Action σ β} {s : σ} {b : β}
    (h : ((x >>= k) s).1 = .ok b) : ∃ a, (x s).1 = .ok a ∧ (k a (x s).2).1 = .ok b := by
  rw [Action.bind_apply] at h
  rcases hx : x s with ⟨e | a, s'⟩
  · rw [hx] at h
    cases h
  · rw [hx] at h
    exact ⟨a, rfl, h⟩

namespace Eval

/-! ## Without an active call no statement returns -/

section Normal

variable {c : Site} {scope : ScopeId} {m : Machine}

/-- the site after a scope was opened -/
theorem holds_openScope (hm : c.Holds m) (hscope : scope < m.size) {bindings : List (Bytes × Value)}
    (hb : ∀ b ∈ bindings, b.2.IsPlain) :
    c.Holds ((Deed.openScope scope bindings).effect m) ∧ m.size < ((Deed.openScope scope bindings).effect m).size := by
  have hfits : (Deed.openScope scope bindings).Fits m.size := ⟨hscope, fun b h => (hb b h).within _⟩
  have h := Settles.deed (c := c) hfits rfl m hm (Nat.le_refl _)
  refine ⟨h.holds, h.within m.size ?_⟩
  rw [Deed.act_openScope]

theorem normal_rounds {ss : List Stmt} (var : Bytes) (hscope : scope < m.size) (hm : c.Holds m)
    (hbody : ∀ {m inner r}, c.Holds m → inner < m.size → (stmts apply inner ss .unit m).1 = .ok r → ∃ v, r = .normal v)
    (left : Nat) (next : Int) {r : Completion}
    (h : (rounds (fun i => do
        let inner ← newScope scope
        define inner var (.number (Number.ofInt i))
        stmts apply inner ss .unit) left next m).1 = .ok r) : ∃ v, r = .normal v := by
  induction left generalizing m next with
  | zero =>
    cases h
    exact ⟨.unit, rfl⟩
  | succ left ih =>
    have hnumber : ∀ b ∈ [(var, Value.number (Number.ofInt next))], b.2.IsPlain := by
      rw [List.forall_mem_singleton]
      nofun
    obtain ⟨hinside, hsize⟩ := holds_openScope hm hscope hnumber
    obtain ⟨e, he, hnext⟩ := Action.bind_eq_ok h
    change (stmts apply m.size ss .unit ((Deed.openScope scope [(var, .number (Number.ofInt next))]).effect m)).1 = .ok e
      at he
    obtain ⟨v, rfl⟩ := hbody hinside hsize he
    have hsettles := settles_stmts (settles_apply c) hsize ss (Value.within_unit _) _ hinside (Nat.le_refl _)
    exact ih (Nat.lt_of_lt_of_le (Nat.lt_trans hscope hsize) hsettles.grows) hsettles.holds (next + 1) hnext

mutual

theorem normal_stmt (hc : c.frames = []) : (s : Stmt) → {scope : ScopeId} → {m : Machine} → {r : ScopeId × Completion} →
    c.Holds m → scope < m.size → (stmt apply scope s m).1 = .ok r → ∃ v, r.2 = .normal v
  | .expr _ x, scope, m, r, hm, hscope, h => by
    rw [stmt] at h
    obtain ⟨v, -, h⟩ := Action.bind_eq_ok h
    cases h
    exact ⟨v, rfl⟩
  | .letDecl _ name _ init, scope, m, r, hm, hscope, h => by
    rw [stmt] at h
    obtain ⟨v, -, h⟩ := Action.bind_eq_ok h
    obtain ⟨target, -, h⟩ := Action.bind_eq_ok h
    cases h
    exact ⟨.unit, rfl⟩
  | .fnDecl _ sig _ body, scope, m, r, hm, hscope, h => by
    rw [stmt] at h
    obtain ⟨target, -, h⟩ := Action.bind_eq_ok h
    cases h
    exact ⟨.unit, rfl⟩
  | .assign pos name value, scope, m, r, hm, hscope, h => by
    rw [stmt] at h
    obtain ⟨v, -, h⟩ := Action.bind_eq_ok h
    obtain ⟨_, -, h⟩ := Action.bind_eq_ok h
    cases h
    exact ⟨.unit, rfl⟩
  | .cond _ test _ thenBody otherwise, scope, m, r, hm, hscope, h => by
    rw [stmt] at h
    have htest := settles_expr (settles_apply c) hscope test m hm (Nat.le_refl _)
    obtain ⟨v, -, h⟩ := Action.bind_eq_ok h
    have hlt := Nat.lt_of_lt_of_le hscope htest.grows
    split at h
    · exact normal_block hc thenBody htest.holds hlt h
    · obtain ⟨e, he, h⟩ := Action.bind_eq_ok h
      cases h
      exact normal_other hc otherwise htest.holds hlt he
  | .loop _ var bounds _ body, scope, m, r, hm, hscope, h => by
    rw [stmt] at h
    have hbounds := settles_expr (settles_apply c) hscope bounds m hm (Nat.le_refl _)
    obtain ⟨v, -, h⟩ := Action.bind_eq_ok h
    have hlt := Nat.lt_of_lt_of_le hscope hbounds.grows
    cases v with
    | range low high =>
      obtain ⟨e, he, h⟩ := Action.bind_eq_ok h
      cases h
      exact normal_rounds var hlt hbounds.holds (fun hm hin => normal_stmts hc body hm hin) _ _ he
    | unit | number | string | bool | function | builtin | unknown => cases h
  | .ret pos none, scope, m, r, hm, hscope, h | .ret pos (some _), scope, m, r, hm, hscope, h => by
    rw [stmt] at h
    obtain ⟨frames, hframes, h⟩ := Action.bind_eq_ok h
    cases hframes
    rw [if_pos (hm.frames.trans hc)] at h
    cases h
  | .block _ body, scope, m, r, hm, hscope, h => by
    rw [stmt] at h
    exact normal_block hc body hm hscope h

theorem normal_block (hc : c.frames = []) : (ss : List Stmt) → {scope : ScopeId} → {m : Machine} →
    {r : ScopeId × Completion} → c.Holds m → scope < m.size →
    ((do let inner ← newScope scope; let e ← stmts apply inner ss .unit; return (scope, e.asBlock) :
      Eval (ScopeId × Completion)) m).1 = .ok r → ∃ v, r.2 = .normal v
  | ss, scope, m, r, hm, hscope, h => by
    have hnone : ∀ b ∈ ([] : List (Bytes × Value)), b.2.IsPlain := List.forall_mem_nil _
    obtain ⟨hinside, hsize⟩ := holds_openScope hm hscope hnone
    obtain ⟨inner, hinner, h⟩ := Action.bind_eq_ok h
    cases hinner
    obtain ⟨e, he, h⟩ := Action.bind_eq_ok h
    cases h
    obtain ⟨v, rfl⟩ := normal_stmts hc ss hinside hsize he
    exact ⟨.unit, rfl⟩

theorem normal_stmts (hc : c.frames = []) : (ss : List Stmt) → {scope : ScopeId} → {m : Machine} → {last : Value} →
    {r : Completion} → c.Holds m → scope < m.size → (stmts apply scope ss last m).1 = .ok r → ∃ v, r = .normal v
  | [], scope, m, last, r, hm, hscope, h => by
    rw [stmts] at h
    cases h
    exact ⟨last, rfl⟩
  | s :: rest, scope, m, last, r, hm, hscope, h => by
    rw [stmts] at h
    have hstmt := settles_stmt (settles_apply c) hscope s m hm (Nat.le_refl _)
    obtain ⟨⟨inner, e⟩, he, h⟩ := Action.bind_eq_ok h
    obtain ⟨v, rfl⟩ : ∃ v, e = .normal v := normal_stmt hc s hm hscope he
    exact normal_stmts hc rest hstmt.holds (hstmt.within _ he).1 h

theorem normal_other (hc : c.frames = []) : (o : Option Stmt) → {scope : ScopeId} → {m : Machine} → {r : Completion} →
    c.Holds m → scope < m.size → (other apply scope o m).1 = .ok r → ∃ v, r = .normal v
  | none, scope, m, r, hm, hscope, h => by
    rw [other] at h
    cases h
    exact ⟨.unit, rfl⟩
  | some s, scope, m, r, hm, hscope, h => by
    rw [other] at h
    obtain ⟨⟨inner, e⟩, he, h⟩ := Action.bind_eq_ok h
    cases h
    exact normal_stmt hc s hm hscope he

end

end Normal

end Eval

/-! ## The global scope -/

theorem rel_self {α : Type} {r : α → α → Prop} (h : ∀ a, r a a) (o : Option α) : Option.Rel r o o := by
  cases o with
  | none => exact .none
  | some a => exact .some (h a)

/-- every value agrees with itself when every scope is paired with itself -/
theorem Value.Paired.refl {P : Pairing} (hP : ∀ i, P i i) (v : Value) : v.Paired P v := by
  cases v with
  | function f => exact .function f.sig f.body (hP f.scope)
  | unit | number | string | bool | builtin | range | unknown => exact .plain fun _ h => by cases h

theorem Value.Paired.eq {v v' : Value} (h : v.Paired Eq v') : v' = v := by
  cases h with
  | function sig body h => rw [h]
  | plain => rfl

theorem forall₂_paired_eq {vs vs' : List Value} (h : List.Forall₂ (Value.Paired Eq) vs vs') : vs' = vs := by
  induction h with
  | nil => rfl
  | cons h _ ih => rw [h.eq, ih]

theorem HostRequest.AnswersPaired.eq {r : HostRequest} {a a' : r.Answer} (h : r.AnswersPaired Eq r a a') : a' = a := by
  have hends : ∀ {ε : Type} {x x' : Except ε Value}, EndsAlike (Value.Paired Eq) x x' → x' = x := by
    intro ε x x' h
    cases h with
    | ok h => rw [h.eq]
    | error e => rfl
  cases r with
  | call | exec | execSource => exact hends h
  | set => exact h
  | lookUp scope name =>
    cases h with
    | none => rfl
    | some h => exact congrArg some h.eq
  | core | global | newScope => exact Eq.symm h
  | kept => exact forall₂_paired_eq h
  | register | define | remember => rfl

namespace Primitive

open Eval Deed

/-- a builtin apart from its calls only has to do with the outside, or it spawns, adds a handler or counts handlers -/
theorem run_forms (p : Primitive) (args : List Value) :
    Outward (p.run idle args) (p.run idle args) ∨
    (∃ f, p.run idle args = (Eval.spawn f >>= fun _ => return .unit)) ∨
    (∃ event f, p.run idle args = (do
      changeInterpreter fun i => { i with handlers := addHandler event f i.handlers }
      log fun m => ⟨text "event registered",
        [(text "event", event), (text "handlers", Bytes.ofNat (handlersOf m.interpreter event).length)]⟩
      return .unit)) ∨
    ∃ event, p.run idle args = Action.asks fun m => .number (Number.ofInt (handlersOf m.interpreter event).length) := by
  by_cases hp : p.isOutward = true
  · have hargs : List.Forall₂ Value.Resembles args args := List.forall₂_same.2 fun v _ => .refl v
    exact .inl (outward_run hp hargs)
  cases p.given args with
  | wrong harity hne =>
    rw [run_of_length_ne harity hne]
    exact .inl (.pure _)
  | spawn f =>
    rcases run_spawn f with ⟨e, he⟩ | he
    · rw [he]
      exact .inl (.fail e)
    · exact .inr (.inl ⟨f, he⟩)
  | registerEvent event f =>
    rcases run_registerEvent event f with ⟨e, he⟩ | ⟨name, he⟩
    · rw [he]
      exact .inl (.fail e)
    · exact .inr (.inr (.inl ⟨name, f, he⟩))
  | triggerEvent event =>
    cases event with
    | string name =>
      refine .inr (.inr (.inr ⟨name, ?_⟩))
      simp only [run, callAll_idle]
      rfl
    | unit | number | bool | function | builtin | range | unknown => exact .inl (.fail _)
  | _ => exact absurd rfl hp

end Primitive

namespace Deed

theorem Paired.eq {d d' : Deed} (h : d.Paired Eq d') : d' = d := by
  cases h with
  | openScope h hbs =>
    subst h
    congr
    induction hbs with
    | nil => rfl
    | cons h _ ih => rw [ih, Prod.ext h.1 h.2.eq]
  | declare h hd =>
    subst h
    cases hd with
    | value name h => rw [h.eq]
    | function => rfl
  | set name h hv => rw [h, hv.eq]
  | builtin p h | remember h => rw [forall₂_paired_eq h]
  | moveGlobal h => rw [h]
  | enter | leave | trace | note => rfl

theorem answersPaired_refl (d : Deed) (a : d.Answer) : AnswersPaired Eq d d a a := by
  cases d with
  | openScope | declare => exact rfl
  | builtin => exact Value.Paired.refl (fun _ => rfl) _
  | set | enter | leave | trace | moveGlobal | note | remember => trivial

end Deed

namespace Eval

/-- the step does the same wherever the global scope is, and leaves it there -/
def Unaware {α : Type} (x : Eval α) : Prop := ∀ m g, x (m.moveGlobal g) = ((x m).1, (x m).2.moveGlobal g)

namespace Unaware

variable {α β : Type}

theorem pure (a : α) : Unaware (Pure.pure a : Eval α) := fun _ _ => rfl

theorem fail (e : Diagnostic) : Unaware (Action.fail e : Eval α) := fun _ _ => rfl

theorem bind {x : Eval α} {k : α → Eval β} (hx : Unaware x) (hk : ∀ a, Unaware (k a)) : Unaware (x >>= k) := by
  intro m g
  rw [Action.bind_apply, Action.bind_apply, hx m g]
  rcases x m with ⟨e | a, m'⟩
  · rfl
  · exact hk a m' g

theorem exchange {f : Machine → α × Machine} (h : ∀ m g, f (m.moveGlobal g) = ((f m).1, (f m).2.moveGlobal g)) :
    Unaware (Action.exchange f) := by
  intro m g
  simp only [Action.exchange, h m g]

/-- a step that sees only the outside -/
theorem of_outward {x : Eval α} (h : Outward x x) : Unaware x := by
  intro m g
  obtain ⟨r, o, es, hx, hmoved, -⟩ := h m (m.moveGlobal g) rfl
  rw [hmoved, hx]
  rfl

end Unaware

theorem unaware_log {entry : Machine → LogEntry} (h : ∀ m g, entry (m.moveGlobal g) = entry m) :
    Unaware (log entry) := by
  intro m g
  rw [log_apply, log_apply, h m g]
  by_cases hlog : m.world.logging = true
  · rw [if_pos hlog]
    exact if_pos hlog
  · rw [if_neg hlog]
    exact if_neg hlog

theorem unaware_trace (function : Bytes) (stage : CallStage) : Unaware (trace function stage) := by
  unfold trace
  exact unaware_log fun _ _ => rfl

theorem unaware_spawn (f : Value) : Unaware (Eval.spawn f) := by
  refine .bind (.exchange fun _ _ => rfl) fun closed => ?_
  split
  · exact .fail _
  · exact unaware_log fun _ _ => rfl

theorem unaware_run (p : Primitive) (args : List Value) : Unaware (p.run Deed.idle args) := by
  rcases p.run_forms args with h | ⟨f, h⟩ | ⟨event, f, h⟩ | ⟨event, h⟩
  · exact .of_outward h
  · rw [h]
    exact .bind (unaware_spawn f) fun _ => .pure _
  · rw [h]
    exact .bind (fun _ _ => rfl) fun _ => .bind (unaware_log fun _ _ => rfl) fun _ => .pure _
  · rw [h]
    exact fun _ _ => rfl

end Eval

namespace Deed

/-- all deeds but making another scope the global one -/
theorem unaware_act {d : Deed} (h : ∀ scope, d ≠ .moveGlobal scope) : Eval.Unaware d.act := by
  intro m g
  cases d with
  | openScope =>
    rw [act_openScope, act_openScope]
    rfl
  | declare scope decl =>
    rw [act_declare, act_declare]
    change (if (m.world.store.bound? scope decl.name).isSome = true then _ else _) = _
    split
    · rfl
    · rfl
  | set | enter | leave | remember => rfl
  | trace function stage => exact Eval.unaware_trace function stage m g
  | builtin p args => exact Eval.unaware_run p args m g
  | moveGlobal scope => exact absurd rfl (h scope)
  | note entry => exact Eval.unaware_log (fun _ _ => rfl) m g

theorem global_effect {d : Deed} (h : ∀ scope, d ≠ .moveGlobal scope) (m : Machine) :
    (d.effect m).interpreter.global = m.interpreter.global :=
  congrArg (fun r => r.2.interpreter.global) (unaware_act h m m.interpreter.global)

end Deed

/-! ## Tasks and the global scope -/

/-- whether a question is about the global scope, or may move it -/
def HostRequest.isGlobal : HostRequest → Bool
  | .exec .. | .execSource .. | .global => true
  | _ => false

/-- no host operation reads the global scope, or runs programs, which may move it -/
def Machine.GlobalUnread (m : Machine) : Prop := m.world.HostsAsk fun r => r.isGlobal = false

/-- but for the global scopes, everything is common to a machine and itself -/
def Common.butGlobal : Common := ⟨False, True, True⟩

theorem HostRequest.Paired.refl {r : HostRequest} (h : r.isGlobal = false) : r.Paired Eq .butGlobal r := by
  have hvalues : ∀ vs : List Value, List.Forall₂ (Value.Paired Eq) vs vs :=
    fun vs => List.forall₂_same.2 fun v _ => .refl (fun _ => rfl) v
  cases r with
  | call f args => exact .call (.refl (fun _ => rfl) f) (hvalues args)
  | exec | execSource | global => cases h
  | register name arity index => exact .register name arity index trivial
  | define scope name v => exact .define name rfl (.refl (fun _ => rfl) v)
  | set scope name v => exact .set name rfl (.refl (fun _ => rfl) v)
  | lookUp scope name => exact .lookUp name rfl
  | core => exact .core trivial
  | newScope parent => exact .newScope rfl
  | kept => exact .kept trivial
  | remember vs => exact .remember (hvalues vs) trivial

theorem HostAction.Paired.refl {action : HostAction} (h : action.AsksOnly fun r => r.isGlobal = false) :
    action.Paired Eq .butGlobal action := by
  induction action with
  | answer v => exact .answer (.refl (fun _ => rfl) v)
  | fail d => exact .fail d
  | ask r next ih =>
    refine .ask (.refl h.1) fun a a' ha => ?_
    rw [ha.eq]
    exact ih a (h.2 a)

namespace Machine

theorem GlobalUnread.effect {m : Machine} (h : m.GlobalUnread) (d : Deed) : (d.effect m).GlobalUnread := by
  rw [GlobalUnread, World.HostsAsk, d.hosts_effect m]
  exact h

/-- machines that differ in their global scope only, which no host operation reads -/
theorem correspondence_moveGlobal :
    Correspondence Eq .butGlobal (fun m m' => (∃ g, m' = m.moveGlobal g) ∧ m.GlobalUnread) (fun _ _ => True)
      (fun _ _ => True) where
  bound := by
    rintro m _ ⟨⟨g, rfl⟩, -⟩ i _ rfl name
    exact rel_self (fun v => .refl (fun _ => rfl) v) _
  parent := by
    rintro m _ ⟨⟨g, rfl⟩, -⟩ i _ rfl
    exact rel_self (fun _ => rfl) _
  core := by
    rintro m _ ⟨⟨g, rfl⟩, -⟩ i _ rfl
    exact Iff.rfl
  limit := by
    rintro m _ ⟨⟨g, rfl⟩, -⟩
    rfl
  frames := by
    rintro m _ ⟨⟨g, rfl⟩, -⟩
    rfl
  handlers := by
    rintro m _ ⟨⟨g, rfl⟩, -⟩ event
    exact List.forall₂_same.2 fun v _ => .refl (fun _ => rfl) v
  hosts := by
    rintro m _ ⟨⟨g, rfl⟩, hunread⟩ index
    change Option.Rel _ m.world.hosts[index]? m.world.hosts[index]?
    cases hoperation : m.world.hosts[index]? with
    | none => exact .none
    | some operation =>
      refine .some fun vs vs' hvs => ?_
      rw [forall₂_paired_eq hvs]
      exact .refl (hunread operation (Array.mem_of_getElem? hoperation) vs)
  global := False.elim
  builtins := by
    rintro - m _ ⟨⟨g, rfl⟩, -⟩
    rfl
  memory := by
    rintro - m _ ⟨⟨g, rfl⟩, -⟩
    exact List.forall₂_same.2 fun v _ => .refl (fun _ => rfl) v
  deed := by
    rintro m _ ⟨⟨g, rfl⟩, hunread⟩ d d' hd - -
    obtain rfl := hd.eq
    by_cases hmove : ∀ scope, d' ≠ .moveGlobal scope
    · have hact := Deed.unaware_act hmove m g
      refine ⟨?_, ⟨g, congrArg Prod.snd hact⟩, hunread.effect d'⟩
      rw [hact]
      cases (d'.act m).1 with
      | error e => exact .error e
      | ok a => exact .ok (Deed.answersPaired_refl d' a)
    · obtain ⟨scope, rfl⟩ := not_forall_not.mp hmove
      exact ⟨.ok trivial, ⟨scope, rfl⟩, hunread⟩

end Machine

namespace Deed

theorem global_performAll {deeds : List Deed} (h : ∀ d ∈ deeds, ∀ scope, d ≠ .moveGlobal scope) (m : Machine) :
    (performAll deeds m).interpreter.global = m.interpreter.global := by
  induction deeds generalizing m with
  | nil => rfl
  | cons d deeds ih =>
    rw [List.forall_mem_cons] at h
    exact (ih h.2 _).trans (global_effect h.1 m)

/-- what reads no global scope moves none -/
theorem doneFor_unmoved : DoneFor (fun r => r.isGlobal = false) fun d => ∀ scope, d ≠ .moveGlobal scope where
  plain _ h _ := h
  moves r hr hruns := by
    cases r with
    | exec | execSource => cases hr
    | call | register | define | set | lookUp | core | global | newScope | kept | remember => cases hruns
  keeps _ _ := nofun

end Deed

namespace Eval

variable {scope : ScopeId} {m : Machine} {last : Value}

/-- statements at the top settle -/
theorem settlesAt_program (hm : m.WellFormed) (hscope : scope < m.size) (ss : List Stmt) (hlast : last.Within m.size) :
    SettlesAt ⟨m.interpreter.limit, m.interpreter.frames⟩ EndsProgram
      (fun n => Task.runWithin n (.program scope ss last)) (program apply scope ss last) m :=
  settles_program (settles_apply _) hscope ss hlast m ⟨hm, rfl, rfl⟩ (Nat.le_refl _)

/-- while statements run that no host operation can tell, the global scope stays where it is -/
theorem program_global (hm : m.WellFormed) (hunread : m.GlobalUnread) (hscope : scope < m.size) (ss : List Stmt)
    (hlast : last.Within m.size) :
    (program apply scope ss last m).2.interpreter.global = m.interpreter.global ∧
      (program apply scope ss last m).2.GlobalUnread := by
  obtain ⟨N, ds, hends, hds, -⟩ := (settlesAt_program hm hscope ss hlast).ends
  have hunmoved := does_runWithin Deed.doneFor_unmoved N (.program scope ss last) m _ ds hunread (hends N (Nat.le_refl N))
  rw [← hds, Machine.GlobalUnread, World.HostsAsk, hosts_performAll]
  exact ⟨Deed.global_performAll hunmoved m, hunread⟩

/-- statements at the top do the same, by the same deeds, wherever the global scope is that no host operation reads -/
theorem program_moveGlobal {g : ScopeId} (hm : m.WellFormed) (hunread : m.GlobalUnread) (hg : g < m.size)
    (hscope : scope < m.size) (ss : List Stmt) (hlast : last.Within m.size) :
    program apply scope ss last (m.moveGlobal g) =
      ((program apply scope ss last m).1, (program apply scope ss last m).2.moveGlobal g) := by
  have hmoved : (m.moveGlobal g).WellFormed := { hm with global := hg }
  obtain ⟨N, ds, hends, hds, -⟩ := (settlesAt_program hm hscope ss hlast).ends
  obtain ⟨N', ds', hends', hds', -⟩ := (settlesAt_program hmoved hscope ss hlast).ends
  -- the same effort for both
  have hrun := hends (max N N') (Nat.le_max_left N N')
  have hrun' := hends' (max N N') (Nat.le_max_right N N')
  have halong : ∀ (ds : List Deed) (m : Machine), Deed.Along (fun _ _ => True) ds m := by
    intro ds
    induction ds with
    | nil => exact fun _ => trivial
    | cons d ds ih => exact fun m => ⟨trivial, ih _⟩
  have hR := Machine.correspondence_moveGlobal
  have htask : (Task.program scope ss last).Paired Eq (.program scope ss last) :=
    .program rfl ss (.refl (fun _ => rfl) last)
  obtain ⟨hend, hdeeds⟩ := ((matches_runWithin hR (max N N')).paired htask).alike ⟨⟨g, rfl⟩, hunread⟩ hrun hrun'
    (halong _ _) (halong _ _)
  obtain ⟨⟨g', hafter⟩, -⟩ := hR.performAll hdeeds ⟨⟨g, rfl⟩, hunread⟩ (halong _ _) (halong _ _)
  rw [hds, hds'] at hafter
  obtain rfl : g' = g := by
    have hglobal := (program_global hmoved hunread hscope ss hlast).1
    rw [hafter] at hglobal
    exact hglobal
  refine Prod.ext ?_ hafter
  obtain ⟨r, hr⟩ := program_ok apply scope ss last m
  obtain ⟨r', hr'⟩ := program_ok apply scope ss last (m.moveGlobal g')
  rw [hr, hr'] at hend ⊢
  obtain ⟨hvalue, hlast⟩ : EndsAlike (Value.Paired Eq) r.1 r'.1 ∧ r.2 = r'.2 := by
    cases hend with
    | ok h => exact h
  refine congrArg _ (Prod.ext ?_ hlast.symm)
  generalize r.1 = a at hvalue
  generalize r'.1 = a' at hvalue
  cases hvalue with
  | ok h => rw [h.eq]
  | error e => rfl

/-! ## One program and then another -/

section Append

variable {v : Value}

/-- the statements behind run in the scope in which those in front ended -/
theorem program_append_ok {c : Site} (hc : c.frames = []) {ss : List Stmt} (rest : List Stmt) {last : Value}
    {inner : ScopeId} (hm : c.Holds m) (hscope : scope < m.size)
    (h : (program apply scope ss last m).1 = .ok (.ok v, inner)) :
    program apply scope (ss ++ rest) last m = program apply inner rest v (program apply scope ss last m).2 := by
  induction ss generalizing scope last m with
  | nil =>
    cases h
    rfl
  | cons s ss ih =>
    have hstmt := settles_stmt (settles_apply c) hscope s m hm (Nat.le_refl _)
    simp only [List.cons_append, program, Action.bind_apply, Action.attempt] at h ⊢
    rcases hrun : stmt apply scope s m with ⟨e | ⟨target, w⟩, m'⟩
    · rw [hrun] at h
      cases h
    · have hend : (stmt apply scope s m).1 = .ok (target, w) := by rw [hrun]
      obtain ⟨w, rfl⟩ : ∃ v, w = .normal v := normal_stmt hc s hm hscope hend
      have hholds := hstmt.holds
      have hwithin := (hstmt.within _ hend).1
      rw [hrun] at h hholds hwithin
      exact ih hholds hwithin h

/-- the statements behind do not run when one in front fails -/
theorem program_append_error {ss : List Stmt} (rest : List Stmt) {last : Value} {e : Diagnostic} {inner : ScopeId}
    (h : (program apply scope ss last m).1 = .ok (.error e, inner)) :
    program apply scope (ss ++ rest) last m = program apply scope ss last m := by
  induction ss generalizing scope last m with
  | nil => cases h
  | cons s ss ih =>
    simp only [List.cons_append, program, Action.bind_apply, Action.attempt] at h ⊢
    rcases hrun : stmt apply scope s m with ⟨d | ⟨target, w | w⟩, m'⟩
    · rfl
    · rw [hrun] at h
      exact ih h
    · rfl

/-- the value of the statement before does not matter when there is another one -/
theorem program_last {rest : List Stmt} (h : rest ≠ []) (last : Value) :
    program apply scope rest last = program apply scope rest .unit := by
  cases rest with
  | nil => exact absurd rfl h
  | cons s rest => rfl

end Append

end Eval

/-- the statements of one program and then those of another -/
def Program.append (p q : Program) : Program := ⟨p.stmts ++ q.stmts, p.errors ++ q.errors⟩

theorem Program.isSound_append {p q : Program} (hp : p.isSound = true) (hq : q.isSound = true) :
    (p.append q).isSound = true := by
  simp only [Program.isSound, List.isEmpty_iff] at hp hq
  simp only [Program.isSound, Program.append, hp, hq, List.append_nil, List.isEmpty_nil]

namespace Machine

variable {m : Machine}

/-- the scope of a program that runs where no host operation can tell may be made the global one before -/
theorem exec_moveGlobal (hm : m.WellFormed) (hunread : m.GlobalUnread) {scope : ScopeId} (hscope : scope < m.size)
    {p : Program} (hp : p.isSound = true) {r : Except Diagnostic Value} {last : ScopeId} {m' : Machine}
    (h : Eval.program Eval.apply scope p.stmts .unit m = (.ok (r, last), m')) :
    (m.moveGlobal scope).exec p none = (Eval.outcome r, m'.moveGlobal last) := by
  have hprogram := Eval.program_moveGlobal hm hunread hscope hscope p.stmts (Value.within_unit _)
  rw [h] at hprogram
  have hexec : (m.moveGlobal scope).exec p none = (Eval.outcome r, _) := exec_of_program hp none hprogram
  have hglobal : (none : Option ScopeId).getD (m.moveGlobal scope).interpreter.global =
      (m'.moveGlobal scope).interpreter.global := rfl
  rw [hexec, if_pos hglobal]
  rfl

/-- a program that fails does not come to what follows -/
theorem exec_append_of_error {p q : Program} (hp : p.isSound = true) (hq : q.isSound = true) {ds : List Diagnostic}
    {m' : Machine} (h : m.exec p none = (.error ds, m')) : m.exec (p.append q) none = (.error ds, m') := by
  obtain ⟨r, last, m₁, hrun⟩ := Eval.program_apply Eval.apply m.interpreter.global p.stmts .unit m
  rw [exec_of_program hp none hrun] at h
  cases r with
  | ok v => cases h
  | error e =>
    have hsame := Eval.program_append_error q.stmts (congrArg Prod.fst hrun)
    rw [hrun] at hsame
    have hexec : m.exec (p.append q) none = (.error [e], _) := exec_of_program (Program.isSound_append hp hq) none hsame
    rw [hexec]
    exact h

/-- **Programs one after the other.** On a well-formed machine without active calls, two sound programs, the second with at
least one statement, run as one program in the global scope. If the first fails on its own, the whole fails in the same
way and leaves the same machine. If it does not, the whole ends and leaves the machine as the second program does on
the machine that the first has left, provided that no host operation reads the global scope or runs programs, or that the
first program has left the global scope where it was. -/
theorem exec_append (m : Machine) (p q : Program) (hm : m.WellFormed) (hframes : m.interpreter.frames = [])
    (hp : p.isSound = true) (hq : q.isSound = true) (hstmts : q.stmts ≠ []) :
    (∀ ds m', m.exec p none = (.error ds, m') → m.exec (p.append q) none = (.error ds, m')) ∧
    ∀ v m', m.exec p none = (.ok v, m') →
      (m.GlobalUnread ∨ m'.interpreter.global = m.interpreter.global) → m.exec (p.append q) none = m'.exec q none := by
  refine ⟨fun ds m' h => exec_append_of_error hp hq h, fun v m' h hread => ?_⟩
  obtain ⟨r, last, m₁, hrun⟩ := Eval.program_apply Eval.apply m.interpreter.global p.stmts .unit m
  have hexec : m.exec p none = (Eval.outcome r,
      if m.interpreter.global = m₁.interpreter.global then m₁.moveGlobal last else m₁) := exec_of_program hp none hrun
  rw [hexec] at h
  cases r with
  | error e => cases h
  | ok w =>
    obtain ⟨-, rfl⟩ := Prod.mk.inj h
    have hfirst := Eval.settlesAt_program hm hm.global p.stmts (Value.within_unit m.size)
    have hwithin := (hfirst.within _ (congrArg Prod.fst hrun)).1
    have hholds := hfirst.holds.wellFormed
    have hsite : Site.Holds ⟨m.interpreter.limit, m.interpreter.frames⟩ m := ⟨hm, rfl, rfl⟩
    have happend := Eval.program_append_ok hframes q.stmts hsite hm.global (congrArg Prod.fst hrun)
    rw [hrun] at hwithin hholds happend
    rw [Eval.program_last hstmts] at happend
    obtain ⟨r', last', m₂, hrun'⟩ := Eval.program_apply Eval.apply last q.stmts .unit m₁
    have hexec' : m.exec (p.append q) none = (Eval.outcome r',
        if m.interpreter.global = m₂.interpreter.global then m₂.moveGlobal last' else m₂) :=
      exec_of_program (Program.isSound_append hp hq) none (happend.trans hrun')
    rcases hread with hunread | hstays
    · -- the global scope does not move before the end
      obtain ⟨hglobal, hunread'⟩ := Eval.program_global hm hunread hm.global p.stmts (Value.within_unit _)
      rw [hrun] at hglobal hunread'
      have hglobal' := (Eval.program_global hholds hunread' hwithin q.stmts (Value.within_unit _)).1
      rw [hrun'] at hglobal'
      rw [hexec', if_pos hglobal.symm, if_pos (hglobal'.trans hglobal).symm]
      exact (exec_moveGlobal hholds hunread' hwithin hq hrun').symm
    · -- the first program has ended where it started
      obtain ⟨rfl, hsame⟩ : last = m.interpreter.global ∧ m.interpreter.global = m₁.interpreter.global := by
        split at hstays
        · exact ⟨hstays, ‹_›⟩
        · exact absurd hstays.symm ‹_›
      have hleft : m₁.moveGlobal m.interpreter.global = m₁ := by
        rw [hsame]
        rfl
      rw [hexec', if_pos hsame, hleft]
      rw [hsame] at hrun' ⊢
      exact (exec_of_program hq none hrun').symm

/-- declares `x`, a function that gives it, and another `x` in a scope of its own -/
def redeclaring : Program where
  stmts := [.letDecl .unknown (text "x") none (.string .unknown (text "old")),
    .fnDecl .unknown ⟨text "f", [], none, false, false⟩ .unknown [.ret .unknown (some (.ident .unknown (text "x")))],
    .letDecl .unknown (text "x") none (.string .unknown (text "new"))]
  errors := []

/-- declares `x` once more and then calls a function -/
def calling (name : Bytes) : Program where
  stmts := [.letDecl .unknown (text "x") none (.string .unknown (text "last")),
    .expr .unknown (.call .unknown (.ident .unknown name) [])]
  errors := []

/-- the function was declared in front of the cut and sees the first `x` -/
theorem exec_append_redeclaring :
    (start .fresh 10).WellFormed ∧ (start .fresh 10).interpreter.frames = [] ∧ redeclaring.isSound = true ∧
    (calling (text "f")).isSound = true ∧ (calling (text "f")).stmts ≠ [] ∧ (start .fresh 10).GlobalUnread ∧
    ((start .fresh 10).exec redeclaring none).1 = .ok .unit ∧
    (start .fresh 10).exec (redeclaring.append (calling (text "f"))) none =
      ((start .fresh 10).exec redeclaring none).2.exec (calling (text "f")) none ∧
    ((start .fresh 10).exec (redeclaring.append (calling (text "f"))) none).1 = .ok (.string (text "old")) := by
  have hunread : (start .fresh 10).GlobalUnread := fun a ha => absurd ha (Array.not_mem_empty a)
  have happend := exec_append (start .fresh 10) redeclaring (calling (text "f")) (wellFormed_start 10) rfl rfl rfl nofun
  exact ⟨wellFormed_start 10, rfl, rfl, rfl, nofun, hunread, rfl, happend.2 .unit _ rfl (.inl hunread), rfl⟩

/-- gives what the global scope binds a name to -/
def lookingUp (name : Bytes) : HostOperation := fun _ =>
  .ask .global fun scope => .ask (.lookUp scope name) fun o => .answer (o.getD .unit)

theorem within_lookingUp (name : Bytes) (n : Nat) : (lookingUp name).Within n := by
  intro k hk args hargs
  refine ⟨trivial, fun i hi scope hscope => ⟨hscope, fun j hj o ho => ?_⟩⟩
  cases o with
  | none => exact Value.within_unit j
  | some v => exact ho v rfl

/-- a machine with a host operation that gives what the global scope binds `x` to -/
def watched : Machine := (start .fresh 10).register (text "getx") (some 0) (lookingUp (text "x"))

/-- in the whole program the operation sees the first `x`, for the global scope has not moved yet; after the first of the
two programs it sees the second -/
theorem exec_append_lookUp :
    watched.WellFormed ∧ watched.interpreter.frames = [] ∧ redeclaring.isSound = true ∧
    (calling (text "getx")).isSound = true ∧ (calling (text "getx")).stmts ≠ [] ∧
    (watched.exec redeclaring none).1 = .ok .unit ∧
    (watched.exec (redeclaring.append (calling (text "getx"))) none).1 = .ok (.string (text "old")) ∧
    ((watched.exec redeclaring none).2.exec (calling (text "getx")) none).1 = .ok (.string (text "new")) :=
  ⟨(wellFormed_start 10).register _ _ (within_lookingUp _ _), rfl, rfl, rfl, nofun, rfl, rfl, rfl⟩

end Machine

end Ouroboros
