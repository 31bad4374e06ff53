/-
Machines up to details.

Functions carry trees into scopes, handlers, spawned work and what the host keeps, and active calls and diagnostics carry
places. `Machine.forget` forgets the details of all of them; what was done to the outside it keeps as it is. Looking up,
binding and opening scopes, and copying them for spawned work, have the same effect before and after forgetting.

Of the operations of a host nothing can be forgotten, for they are written in another language. On two machines they are
alike when they ask the same and give the same up to details, as long as they are answered the same up to details
(`HostOperation.Alike`). Then the machines differ in details only (`Machine.SameUpTo`).
-/
import Mathlib.Data.List.InsertIdx
import Ouroboros.Proofs.Forgetting.Trees
import Ouroboros.Session

namespace Ouroboros

/-! ## Values and diagnostics -/

/-- the function without the details of its declaration -/
def Closure.forget (d : Details) (f : Closure) : Closure := ⟨f.sig.forget d, Stmt.forgetAll d f.body, f.scope⟩

/-- the value without details -/
def Value.forget (d : Details) : Value → Value
  | .function f => .function (f.forget d)
  | v => v

/-- the call at no place -/
def Frame.unplaced (f : Frame) : Frame := { f with pos := .unknown }

/-- the line of a traceback without the place of its call -/
def TraceLine.unplaced : TraceLine → TraceLine
  | .call frame => .call frame.unplaced
  | .note t => .note t

/-- the diagnostic at no place, with the names of the active calls only -/
def Diagnostic.unplaced (e : Diagnostic) : Diagnostic :=
  { e with pos := .unknown, trace := e.trace.map TraceLine.unplaced }

theorem TraceLine.unplaced_unplaced (line : TraceLine) : line.unplaced.unplaced = line.unplaced := by
  cases line <;> rfl

theorem Diagnostic.unplaced_unplaced (e : Diagnostic) : e.unplaced.unplaced = e.unplaced := by
  simp only [unplaced, List.map_map]
  have htrace : TraceLine.unplaced ∘ TraceLine.unplaced = TraceLine.unplaced := funext TraceLine.unplaced_unplaced
  rw [htrace]

/-- how a statement ends, without details -/
def Completion.forget (d : Details) : Completion → Completion
  | .normal v => .normal (v.forget d)
  | .returned v => .returned (v.forget d)

section Values

variable (d : Details) (v : Value)

@[simp] theorem Value.typeName_forget : (v.forget d).typeName = v.typeName := by
  cases v <;> rfl

@[simp] theorem Value.callName_forget : (v.forget d).callName = v.callName := by
  cases v <;> rfl

@[simp] theorem Value.isFunction_forget : (v.forget d).isFunction = v.isFunction := by
  cases v <;> rfl

/-- only functions have details -/
theorem Value.forget_of_not_function {v : Value} (h : ¬v.isFunction) : v.forget d = v := by
  cases v with
  | function f => exact absurd rfl h
  | unit | number | string | bool | builtin | range | unknown => rfl

@[simp] theorem Completion.asBlock_forget (c : Completion) : (c.forget d).asBlock = c.asBlock.forget d := by
  cases c <;> rfl

@[simp] theorem Signature.length_params_forget (s : Signature) : (s.forget d).params.length = s.params.length := by
  simp [Signature.forget]

theorem Signature.map_name_forget (s : Signature) : (s.forget d).params.map Param.name = s.params.map Param.name := by
  simp only [Signature.forget, List.map_map]
  rfl

end Values

/-! ## Machines -/

/-- the bindings without the details of their values -/
def Table.forget (d : Details) (t : Table) : Table := t.map fun b => (b.1, b.2.forget d)

/-- the scope without the details of the values it binds -/
def Scope.forget (d : Details) (s : Scope) : Scope := ⟨s.parent, Table.forget d s.table⟩

/-- the scopes without details -/
def Store.forget (d : Details) (s : Store) : Store := ⟨s.scopes.map (Scope.forget d)⟩

/-- the interpreter without the details of its handlers, and its active calls at no place -/
def Interpreter.forget (d : Details) (i : Interpreter) : Interpreter :=
  { i with
    frames := i.frames.map Frame.unplaced
    handlers := i.handlers.map fun h => (h.1, h.2.map (Value.forget d)) }

/-- the spawned work without details -/
def Job.forget (d : Details) (j : Job) : Job := ⟨j.interpreter.forget d, j.work.forget d, j.name⟩

/-- the world without details, and without the host's operations; what was done to the outside stays as it is -/
def World.forget (d : Details) (w : World) : World :=
  { w with
    store := w.store.forget d
    hosts := #[]
    memory := w.memory.map (Value.forget d)
    jobs := w.jobs.map (Job.forget d) }

/-- the machine without details -/
def Machine.forget (d : Details) (m : Machine) : Machine := ⟨m.interpreter.forget d, m.world.forget d⟩

/-- the outcome of an operation, without details -/
def Outcome.forget (d : Details) : Outcome → Outcome
  | .ok v => .ok (v.forget d)
  | .error es => .error (es.map Diagnostic.unplaced)

/-- the program without details -/
def Program.forget (d : Details) (p : Program) : Program :=
  ⟨Stmt.forgetAll d p.stmts, p.errors.map Diagnostic.unplaced⟩

/-- what a step gives, without details, where `g` takes them from the value -/
def Eval.forgetResult {α β : Type} (g : α → β) : Except Diagnostic α → Except Diagnostic β
  | .ok a => .ok (g a)
  | .error e => .error e.unplaced

/-! ## Hosts -/

/-- what a host's operation asks, without details; the text of a program stays as it is -/
def HostRequest.forget (d : Details) : HostRequest → HostRequest
  | .call f args => .call (f.forget d) (args.map (Value.forget d))
  | .exec p scope => .exec (p.forget d) scope
  | .define scope name v => .define scope name (v.forget d)
  | .set scope name v => .set scope name (v.forget d)
  | .remember vs => .remember (vs.map (Value.forget d))
  | r => r

/-- what it is answered, without details -/
def HostRequest.forgetAnswer (d : Details) : (r : HostRequest) → r.Answer → r.Answer
  | .call .. => Eval.forgetResult (Value.forget d)
  | .exec .. | .execSource .. => Outcome.forget d
  | .lookUp .. => Option.map (Value.forget d)
  | .kept => List.map (Value.forget d)
  | .set .. | .core | .global | .newScope _ | .register .. | .define .. | .remember _ => id

/-- the actions end alike up to details, or ask alike and go on so when they are answered alike -/
inductive HostAction.Alike (d : Details) : HostAction → HostAction → Prop where
  | answer {v v' : Value} (h : v.forget d = v'.forget d) : Alike d (.answer v) (.answer v')
  | fail {e e' : Diagnostic} (h : e.unplaced = e'.unplaced) : Alike d (.fail e) (.fail e')
  | ask {r r' : HostRequest} {next : r.Answer → HostAction} {next' : r'.Answer → HostAction}
    (hr : r.forget d = r'.forget d)
    (hnext : ∀ a a', r.forgetAnswer d a ≍ r'.forgetAnswer d a' → Alike d (next a) (next' a')) :
    Alike d (.ask r next) (.ask r' next')

/-- the operations act alike up to details, on arguments that differ in details only -/
def HostOperation.Alike (d : Details) (operation operation' : HostOperation) : Prop :=
  ∀ args args' : List Value, args.map (Value.forget d) = args'.map (Value.forget d) →
    HostAction.Alike d (operation args) (operation' args')

/-- the hosts have as many operations, and these are alike up to details -/
def World.HostsAlike (d : Details) (w w' : World) : Prop :=
  ∀ i : Nat, Option.Rel (HostOperation.Alike d) w.hosts[i]? w'.hosts[i]?

/-- the machines differ in details only -/
structure Machine.SameUpTo (d : Details) (m m' : Machine) : Prop where
  forgotten : m.forget d = m'.forget d
  hosts : m.world.HostsAlike d m'.world

section Hosts

variable {d : Details}

theorem HostAction.Alike.symm {a a' : HostAction} (h : a.Alike d a') : a'.Alike d a := by
  induction h with
  | answer h => exact .answer h.symm
  | fail h => exact .fail h.symm
  | ask hr _ ih => exact .ask hr.symm fun b b' hb => ih b' b hb.symm

/-- a question that is the same up to details can be answered the same up to details -/
theorem HostRequest.exists_answer {r r' : HostRequest} (h : r.forget d = r'.forget d) (a : r.Answer) :
    ∃ a' : r'.Answer, r.forgetAnswer d a ≍ r'.forgetAnswer d a' := by
  cases r <;> cases r' <;> first
    | exact ⟨a, HEq.rfl⟩
    | cases h

theorem HostAction.Alike.trans {a₁ a₂ a₃ : HostAction} (h : a₁.Alike d a₂) (h' : a₂.Alike d a₃) : a₁.Alike d a₃ := by
  induction h generalizing a₃ with
  | answer h =>
    cases h' with
    | answer h' => exact .answer (h.trans h')
  | fail h =>
    cases h' with
    | fail h' => exact .fail (h.trans h')
  | ask hr _ ih =>
    cases h' with
    | ask hr' hnext' =>
      refine .ask (hr.trans hr') fun a a₃ ha => ?_
      obtain ⟨a₂, ha₂⟩ := HostRequest.exists_answer hr a
      exact ih a a₂ ha₂ (hnext' a₂ a₃ (ha₂.symm.trans ha))

theorem World.HostsAlike.symm {w w' : World} (h : w.HostsAlike d w') : w'.HostsAlike d w := by
  intro i
  have hi := h i
  generalize w.hosts[i]? = o at hi ⊢
  generalize w'.hosts[i]? = o' at hi ⊢
  cases hi with
  | none => exact .none
  | some hop => exact .some fun args args' hargs => (hop args' args hargs.symm).symm

theorem World.HostsAlike.trans {w₁ w₂ w₃ : World} (h : w₁.HostsAlike d w₂) (h' : w₂.HostsAlike d w₃) :
    w₁.HostsAlike d w₃ := by
  intro i
  have hi := h i
  have hi' := h' i
  generalize w₁.hosts[i]? = o₁ at hi ⊢
  generalize w₂.hosts[i]? = o₂ at hi hi'
  generalize w₃.hosts[i]? = o₃ at hi' ⊢
  cases hi with
  | none =>
    cases hi'
    exact .none
  | some hop =>
    cases hi' with
    | some hop' => exact .some fun args args₃ hargs => (hop args args rfl).trans (hop' args args₃ hargs)

theorem Machine.SameUpTo.symm {m m' : Machine} (h : m.SameUpTo d m') : m'.SameUpTo d m :=
  ⟨h.forgotten.symm, h.hosts.symm⟩

theorem Machine.SameUpTo.trans {m₁ m₂ m₃ : Machine} (h : m₁.SameUpTo d m₂) (h' : m₂.SameUpTo d m₃) : m₁.SameUpTo d m₃ :=
  ⟨h.forgotten.trans h'.forgotten, h.hosts.trans h'.hosts⟩

end Hosts

/-! ## Scopes -/

section Scopes

variable (d : Details)

theorem Table.lookup_forget (name : Bytes) (t : Table) :
    (Table.forget d t).lookup name = (t.lookup name).map (Value.forget d) := by
  induction t with
  | nil => rfl
  | cons b t ih =>
    rcases b with ⟨other, w⟩
    simp only [Table.forget, List.map_cons, List.lookup_cons] at ih ⊢
    cases name == other
    · exact ih
    · rfl

theorem Table.insert_forget (name : Bytes) (v : Value) (t : Table) :
    Table.forget d (t.insert name v) = Table.insert name (v.forget d) (Table.forget d t) := by
  induction t with
  | nil => rfl
  | cons b t ih =>
    rcases b with ⟨other, w⟩
    by_cases h : other = name
    · simp [Table.insert, Table.forget, h]
    · simp only [Table.forget, Table.insert, List.map_cons, h, if_false] at ih ⊢
      rw [ih]

namespace Store

variable (s : Store)

@[simp] theorem size_forget : (s.forget d).scopes.size = s.scopes.size := by
  simp [forget]

theorem getElem?_forget (i : ScopeId) : (s.forget d).scopes[i]? = (s.scopes[i]?).map (Scope.forget d) := by
  simp [forget]

@[simp] theorem parent?_forget (id : ScopeId) : (s.forget d).parent? id = s.parent? id := by
  simp only [parent?, getElem?_forget]
  cases s.scopes[id]? <;> rfl

@[simp] theorem bound?_forget (id : ScopeId) (name : Bytes) :
    (s.forget d).bound? id name = (s.bound? id name).map (Value.forget d) := by
  simp only [bound?, getElem?_forget]
  cases s.scopes[id]? with
  | none => rfl
  | some scope => exact Table.lookup_forget d name scope.table

theorem chainWithin_forget (n : Nat) (id : ScopeId) : (s.forget d).chainWithin n id = s.chainWithin n id := by
  induction n generalizing id with
  | zero => rfl
  | succ n ih =>
    rw [chainWithin, chainWithin, parent?_forget]
    cases s.parent? id with
    | none => rfl
    | some p => simp only [ih p]

@[simp] theorem owner?_forget (id : ScopeId) (name : Bytes) : (s.forget d).owner? id name = s.owner? id name := by
  simp only [owner?, chain, chainWithin_forget, bound?_forget, Option.isSome_map]

@[simp] theorem lookup?_forget (id : ScopeId) (name : Bytes) :
    (s.forget d).lookup? id name = (s.lookup? id name).map (Value.forget d) := by
  simp only [lookup?, owner?_forget]
  cases s.owner? id name with
  | none => rfl
  | some e => exact bound?_forget d s e name

@[simp] theorem define_forget (id : ScopeId) (name : Bytes) (v : Value) :
    (s.define id name v).forget d = (s.forget d).define id name (v.forget d) := by
  simp only [define, forget, mk.injEq]
  apply Array.ext_getElem?
  intro i
  simp only [Array.getElem?_map, Array.getElem?_modify]
  by_cases h : id = i
  · subst h
    cases s.scopes[id]? with
    | none => simp
    | some scope => simp [Scope.forget, Table.insert_forget]
  · simp [h]

@[simp] theorem push_forget (parent : Option ScopeId) :
    (s.forget d).push parent = ((s.push parent).1, (s.push parent).2.forget d) := by
  simp only [push, forget, Array.size_map, Array.map_push]
  rfl

end Store

/-- builtins have no details -/
theorem coreTable_forget : Table.forget d coreTable = coreTable := by
  have h : ∀ (ps : List Primitive) (t : Table),
      Table.forget d (ps.foldl (fun t p => t.insert p.name (.builtin p.builtin)) t) =
        ps.foldl (fun t p => t.insert p.name (.builtin p.builtin)) (Table.forget d t) := by
    intro ps
    induction ps with
    | nil => intro t; rfl
    | cons p ps ih =>
      intro t
      rw [List.foldl_cons, ih, Table.insert_forget]
      rfl
  exact h Primitive.all []

theorem World.newInterpreter_forget (w : World) (limit : Int) (path : SpawnPath) :
    (w.forget d).newInterpreter limit path =
      ((w.newInterpreter limit path).1.forget d, (w.newInterpreter limit path).2.forget d) := by
  simp only [newInterpreter, Store.pushCore, forget, Store.forget, Array.size_map, Array.map_push, Scope.forget,
    coreTable_forget]
  rfl

end Scopes

/-! ## Copies of scopes -/

namespace Snapshot

variable (d : Details)

/-- what is copied, without details -/
def Copying.forget (c : Copying) : Copying := { c with store := c.store.forget d }

/-- copying commutes with forgetting details -/
def CopiesAlike (copy : Copy) : Prop := ∀ id c, copy id (c.forget d) = ((copy id c).1, (copy id c).2.forget d)

variable {d}

theorem value_forget {copy : Copy} (hcopy : CopiesAlike d copy) (v : Value) (c : Copying) :
    value copy (v.forget d) (c.forget d) = ((value copy v c).1.forget d, (value copy v c).2.forget d) := by
  cases v with
  | function f =>
    simp only [Value.forget, value, Closure.forget, hcopy f.scope c]
  | unit | number | string | bool | builtin | range | unknown => rfl

theorem table_forget {copy : Copy} (hcopy : CopiesAlike d copy) (target : ScopeId) (t : Table) (c : Copying) :
    table copy target (Table.forget d t) (c.forget d) = (table copy target t c).forget d := by
  induction t generalizing c with
  | nil => rfl
  | cons b t ih =>
    rcases b with ⟨name, v⟩
    simp only [Table.forget, List.map_cons, table, value_forget hcopy v c] at ih ⊢
    rw [← ih]
    simp only [Copying.forget, Store.define_forget]

theorem arranged_map {α β : Type} (f : α → β) (place : Nat → Nat) (l : List α) :
    arranged place (l.map f) = (arranged place l).map f := by
  induction l with
  | nil => rfl
  | cons a rest ih => rw [List.map_cons, arranged, arranged, ih, List.map_insertIdx, List.length_map]

theorem arrange_forget (c : Copying) (t : Table) : (c.forget d).arrange (Table.forget d t) = Table.forget d (c.arrange t) :=
  arranged_map _ _ t

theorem scopeWith_forget {copy : Copy} (hcopy : CopiesAlike d copy) : CopiesAlike d (scopeWith copy) := by
  intro id c
  simp only [scopeWith, Copying.forget, Store.getElem?_forget]
  by_cases hstop : id = c.stop
  · simp [hstop]
  simp only [hstop, if_false]
  cases c.copies.lookup id with
  | some t => rfl
  | none =>
    cases hscope : c.store.scopes[id]? with
    | none => rfl
    | some scope =>
      have hfill : ∀ (parent : ScopeId) (c : Copying),
          table copy (c.store.forget d).scopes.size ((c.forget d).arrange (Table.forget d scope.table))
              { c with store := ((c.store.forget d).push (some parent)).2,
                       copies := (id, (c.store.forget d).scopes.size) :: c.copies } =
            (table copy c.store.scopes.size (c.arrange scope.table)
              { c with store := (c.store.push (some parent)).2,
                       copies := (id, c.store.scopes.size) :: c.copies }).forget d := by
        intro parent c
        rw [arrange_forget, ← table_forget hcopy]
        simp only [Copying.forget, Store.push_forget, Store.size_forget]
      cases hparent : scope.parent with
      | none =>
        simp only [Option.map_some, Scope.forget, hparent]
        exact Prod.ext (Store.size_forget d c.store) (hfill c.base c)
      | some p =>
        have hp := hcopy p c
        simp only [Copying.forget] at hp
        simp only [Option.map_some, Scope.forget, hparent, hp]
        exact Prod.ext (Store.size_forget d _) (hfill _ _)

theorem scopeWithin_forget (n : Nat) : CopiesAlike d (scopeWithin n) := by
  induction n with
  | zero => exact fun _ _ => rfl
  | succ n ih => exact scopeWith_forget ih

theorem take_forget (stop base : ScopeId) (order : CopyOrder) (v : Value) (s : Store) :
    take stop base order (v.forget d) (s.forget d) =
      ((take stop base order v s).1.forget d, (take stop base order v s).2.forget d) := by
  have h := value_forget (scopeWithin_forget (d := d) (depth s)) v ⟨stop, base, order, s, []⟩
  simp only [take, depth, Store.size_forget] at h ⊢
  have hcopying : (⟨stop, base, order, s.forget d, []⟩ : Copying) = Copying.forget d ⟨stop, base, order, s, []⟩ := rfl
  rw [hcopying, h]
  rfl

end Snapshot

theorem Eval.transfer_forget (d : Details) (stop base : ScopeId) (order : CopyOrder) (v : Value) (s : Store) :
    transfer stop base order (v.forget d) (s.forget d) =
      ((transfer stop base order v s).1.forget d, (transfer stop base order v s).2.forget d) := by
  cases v with
  | builtin b =>
    simp only [Value.forget, transfer, rebound, Store.lookup?_forget]
    cases s.lookup? base b.name <;> rfl
  | function f => exact Snapshot.take_forget stop base order (.function f) s
  | unit => exact Snapshot.take_forget stop base order .unit s
  | number n => exact Snapshot.take_forget stop base order (.number n) s
  | string t => exact Snapshot.take_forget stop base order (.string t) s
  | bool b => exact Snapshot.take_forget stop base order (.bool b) s
  | range low high => exact Snapshot.take_forget stop base order (.range low high) s
  | unknown n => exact Snapshot.take_forget stop base order (.unknown n) s

end Ouroboros
