/-
Disciplines of evaluation.

A discipline asks something of a machine, of the values and the scopes that a run has to do with, and of the statements that
run. What it allows in a machine may depend on the machine; what is allowed once stays allowed (`Discipline.Leads`). Where
its laws hold (`Discipline.Laws`), a run that starts within the discipline stays within it: each deed is told only what is
allowed at the time (`Discipline.Told`), each task is given only what is allowed and gives only what is allowed, and the
machine is as asked after each deed (`Discipline.keeps_runWithin`). The operations of a host are no part of this: one of the
laws is that they are within the discipline themselves.

A watched run (`Discipline.watchWithin`) looks at all of this while it goes on: it gives nothing as soon as a task is asked
or gives something that is not allowed. So that a run stays within the discipline all along is the same as that the watched
run does what the run does.
-/
import Ouroboros.Proofs.Execution.Captures
import Ouroboros.Proofs.Execution.Judgments
import Ouroboros.Proofs.Execution.Pairing
import Ouroboros.Proofs.Execution.Values

namespace Ouroboros

open Eval

/-- the scope that is opened, if one is, is as `N` says -/
def HostRequest.Opens (N : ScopeId → Prop) : (r : HostRequest) → r.Answer → Prop
  | .newScope _, (scope : ScopeId) => N scope
  | .call .., _ | .exec .., _ | .execSource .., _ | .register .., _ | .define .., _ | .set .., _ | .lookUp .., _ | .core, _
  | .global, _ | .kept, _ | .remember _, _ => True

/-- the question has only such statements run as `Q` says, and gives new values only to bindings of scopes as `N` says -/
def HostRequest.Spares (N : ScopeId → Prop) (Q : Stmt → Prop) : HostRequest → Prop
  | .exec p _ => ∀ s ∈ p.stmts, s.Throughout (fun _ => True) Q
  | .execSource _ source => ∀ s ∈ (Program.ofSource source).stmts, s.Throughout (fun _ => True) Q
  | .define scope .. => N scope
  | .set .. | .register .. => ∀ owner, N owner
  | .call .. | .lookUp .. | .core | .global | .newScope _ | .kept | .remember _ => True

/-- as long as the scopes that are opened for it are as `N` says, the host's operation has only such statements run as `Q`
says, and gives new values only to bindings of scopes as `N` says -/
def HostOperation.Spares (N : ScopeId → Prop) (Q : Stmt → Prop) (operation : HostOperation) : Prop :=
  ∀ args, (operation args).AsksGiven (HostRequest.Opens N) (HostRequest.Spares N Q)

/-- values and scopes that stay admitted in a machine once they are so -/
def HostLaw.lasting (value : Machine → Value → Prop) (scope : Machine → ScopeId → Prop) : HostLaw Machine where
  later m m' := (∀ v, value m v → value m' v) ∧ ∀ i, scope m i → scope m' i
  value := value
  scope := scope

theorem HostLaw.lasting_trans {value : Machine → Value → Prop} {scope : Machine → ScopeId → Prop} {m m' m'' : Machine}
    (h : (lasting value scope).later m m') (h' : (lasting value scope).later m' m'') : (lasting value scope).later m m'' :=
  ⟨fun v hv => h'.1 v (h.1 v hv), fun i hi => h'.2 i (h.2 i hi)⟩

/-- what is asked of a machine, of values and scopes in it, of each statement that runs, and of the scopes whose bindings
may get new values -/
structure Discipline where
  holds : Machine → Prop
  value : Machine → Value → Prop
  scope : Machine → ScopeId → Prop
  stmt : Stmt → Prop
  sets : ScopeId → Prop

namespace Discipline

/-- what a host's operation may hand out, given the same -/
abbrev law (D : Discipline) : HostLaw Machine := .lasting D.value D.scope

/-- the statement and all statements in it are allowed -/
def Admits (D : Discipline) (s : Stmt) : Prop := s.Throughout (fun _ => True) D.stmt

/-- the second machine is as asked, and what was allowed in the first is allowed in it -/
structure Leads (D : Discipline) (m m' : Machine) : Prop where
  holds : D.holds m'
  value : ∀ {v : Value}, D.value m v → D.value m' v
  scope : ∀ {i : ScopeId}, D.scope m i → D.scope m' i
  hosts : m'.world.hosts = m.world.hosts

/-- the deed is told only what is allowed -/
def Told (D : Discipline) (d : Deed) (m : Machine) : Prop :=
  match d with
  | .openScope parent bindings => D.scope m parent ∧ ∀ b ∈ bindings, D.value m b.2
  | .declare scope (.value _ v) => D.scope m scope ∧ D.value m v
  | .declare scope (.function _ body) => D.scope m scope ∧ ∀ s ∈ body, D.Admits s
  | .set owner _ v => D.sets owner ∧ D.scope m owner ∧ D.value m v
  | .builtin _ args => ∀ v ∈ args, D.value m v
  | .moveGlobal scope => D.scope m scope
  | .remember vs => ∀ v ∈ vs, D.value m v
  | .enter _ | .leave | .trace .. | .note _ => True

/-- the deed gives only what is allowed -/
def Given (D : Discipline) (m : Machine) : (d : Deed) → d.Answer → Prop
  | .openScope .., (scope : ScopeId) => D.scope m scope ∧ D.sets scope
  | .declare .., (scope : ScopeId) => D.scope m scope
  | .builtin .., (v : Value) => D.value m v
  | .set .., _ | .enter .., _ | .leave, _ | .trace .., _ | .moveGlobal .., _ | .note .., _ | .remember _, _ => True

/-- **The laws of a discipline.** What an allowed scope leads to is allowed, and so is what evaluation makes; a deed that is
told only what is allowed keeps to the discipline. -/
structure Laws (D : Discipline) : Prop where
  bound : ∀ {m : Machine} {i : ScopeId} {name : Bytes} {v : Value}, D.holds m → D.scope m i →
    m.world.store.bound? i name = some v → D.value m v
  parent : ∀ {m : Machine} {i p : ScopeId}, D.holds m → D.scope m i → m.world.store.parent? i = some p → D.scope m p
  global : ∀ {m : Machine}, D.holds m → D.scope m m.interpreter.global
  core : ∀ {m : Machine}, D.holds m → D.scope m m.interpreter.core
  handlers : ∀ {m : Machine}, D.holds m → ∀ event, ∀ h ∈ Primitive.handlersOf m.interpreter event, D.value m h
  host : ∀ {m : Machine} {operation : HostOperation}, D.holds m → operation ∈ m.world.hosts →
    operation.Meets D.law m ∧ operation.Spares D.sets D.stmt
  memory : ∀ {m : Machine} {operation : HostOperation}, D.holds m → operation ∈ m.world.hosts →
    ∀ v ∈ m.world.memory, D.value m v
  assign : ∀ {pos : Pos} {name : Bytes} {x : Expr}, D.stmt (.assign pos name x) → ∀ owner, D.sets owner
  closure : ∀ {m : Machine} {f : Closure}, D.value m (.function f) → D.scope m f.scope ∧ ∀ s ∈ f.body, D.Admits s
  made : ∀ {m : Machine} {v : Value}, v.IsPlain → v.Sound → D.value m v
  deed : ∀ {m : Machine} {d : Deed}, D.holds m → D.Told d m →
    D.Leads m (d.effect m) ∧ ∀ a, (d.act m).1 = .ok a → D.Given (d.effect m) d a

variable {D : Discipline} {m m' m'' : Machine}

theorem Leads.refl (h : D.holds m) : D.Leads m m := ⟨h, id, id, rfl⟩

theorem Leads.trans (h : D.Leads m m') (h' : D.Leads m' m'') : D.Leads m m'' :=
  ⟨h'.holds, fun hv => h'.value (h.value hv), fun hi => h'.scope (h.scope hi), h'.hosts.trans h.hosts⟩

theorem Leads.later (h : D.Leads m m') : D.law.later m m' := ⟨fun _ => h.value, fun _ => h.scope⟩

theorem Leads.values (h : D.Leads m m') {vs : List Value} (hvs : ∀ v ∈ vs, D.value m v) : ∀ v ∈ vs, D.value m' v :=
  fun v hv => h.value (hvs v hv)

/-! ## Courses -/

section Courses

variable {α β : Type} {V : Machine → α → Prop} {W : Machine → β → Prop} {x y : Course α}

/-- from the machine on, the course keeps to the discipline and gives only what `V` says, and the course `y` does the same
-/
structure Keeps (D : Discipline) (V : Machine → α → Prop) (x y : Course α) (m : Machine) : Prop where
  same : y m = x m
  told : ∀ {r : Except Diagnostic α} {ds : List Deed}, x m = some (r, ds) → Deed.Along D.Told ds m
  leads : ∀ {r : Except Diagnostic α} {ds : List Deed}, x m = some (r, ds) → D.Leads m (performAll ds m)
  gives : ∀ {a : α} {ds : List Deed}, x m = some (.ok a, ds) → V (performAll ds m) a

namespace Keeps

/-- a course that only reads the machine -/
theorem reads {f : Machine → Except Diagnostic α} (hm : D.holds m) (h : ∀ a, f m = .ok a → V m a) :
    D.Keeps V (Course.reads f) (Course.reads f) m := by
  refine ⟨rfl, ?_, ?_, ?_⟩
  · intro r ds hrun
    cases hrun
    trivial
  · intro r ds hrun
    cases hrun
    exact .refl hm
  · intro a ds hrun
    obtain ⟨ha, rfl⟩ := Prod.mk.inj (Option.some.inj hrun)
    exact h a ha

theorem pure {a : α} (hm : D.holds m) (h : V m a) : D.Keeps V (Pure.pure a) (Pure.pure a) m := by
  refine reads (f := fun _ => .ok a) hm fun b hb => ?_
  cases hb
  exact h

theorem fail (hm : D.holds m) (e : Diagnostic) : D.Keeps V (Course.fail e) (Course.fail e) m :=
  reads (f := fun _ => .error e) hm nofun

theorem failAt (hm : D.holds m) (pos : Pos) (fault : Fault) :
    D.Keeps V (Course.failAt pos fault) (Course.failAt pos fault) m := fail hm _

theorem asks {f : Machine → α} (hm : D.holds m) (h : V m (f m)) : D.Keeps V (Course.asks f) (Course.asks f) m := by
  refine reads (f := fun m => .ok (f m)) hm fun b hb => ?_
  cases hb
  exact h

/-- a part of the machine of which nothing is asked -/
theorem look {f : Machine → α} (hm : D.holds m) : D.Keeps (fun _ _ => True) (Course.asks f) (Course.asks f) m :=
  asks hm trivial

theorem deed {d : Deed} (L : D.Laws) (hm : D.holds m) (hd : D.Told d m) :
    D.Keeps (fun m a => D.Given m d a) (Course.deed d) (Course.deed d) m := by
  obtain ⟨hleads, hgiven⟩ := L.deed hm hd
  refine ⟨rfl, ?_, ?_, ?_⟩
  · intro r ds hrun
    cases hrun
    exact ⟨hd, trivial⟩
  · intro r ds hrun
    cases hrun
    exact hleads
  · intro a ds hrun
    obtain ⟨ha, rfl⟩ := Prod.mk.inj (Option.some.inj hrun)
    exact hgiven a ha

/-- one course after the other; the second starts from a machine to which the first has led -/
theorem bind {k l : α → Course β} (hx : D.Keeps V x y m)
    (hk : ∀ a m', D.Leads m m' → V m' a → D.Keeps W (k a) (l a) m') : D.Keeps W (x >>= k) (y >>= l) m := by
  refine ⟨?_, ?_, ?_, ?_⟩
  · change Course.bind y l m = Course.bind x k m
    rw [Course.bind, Course.bind, hx.same]
    rcases hrun : x m with _ | ⟨e | a, ds⟩
    · rfl
    · rfl
    · simp only [(hk a _ (hx.leads hrun) (hx.gives hrun)).same]
  · intro r ds hrun
    rcases Course.bind_eq_some hrun with ⟨e, he, -⟩ | ⟨a, ds₁, ds₂, hfirst, hnext, rfl⟩
    · exact hx.told he
    · rw [Deed.along_append]
      exact ⟨hx.told hfirst, (hk a _ (hx.leads hfirst) (hx.gives hfirst)).told hnext⟩
  · intro r ds hrun
    rcases Course.bind_eq_some hrun with ⟨e, he, -⟩ | ⟨a, ds₁, ds₂, hfirst, hnext, rfl⟩
    · exact hx.leads he
    · rw [performAll_append]
      exact (hx.leads hfirst).trans ((hk a _ (hx.leads hfirst) (hx.gives hfirst)).leads hnext)
  · intro b ds hrun
    rcases Course.bind_eq_some hrun with ⟨e, -, he⟩ | ⟨a, ds₁, ds₂, hfirst, hnext, rfl⟩
    · cases he
    · rw [performAll_append]
      exact (hk a _ (hx.leads hfirst) (hx.gives hfirst)).gives hnext

theorem attempt (hx : D.Keeps V x y m) :
    D.Keeps (fun m r => ∀ a, r = .ok a → V m a) (Course.attempt x) (Course.attempt y) m := by
  refine ⟨?_, ?_, ?_, ?_⟩
  · rw [Course.attempt, Course.attempt, hx.same]
  · intro r ds hrun
    obtain ⟨⟨r', ds'⟩, hbody, hsame⟩ := Option.map_eq_some_iff.mp hrun
    cases hsame
    exact hx.told hbody
  · intro r ds hrun
    obtain ⟨⟨r', ds'⟩, hbody, hsame⟩ := Option.map_eq_some_iff.mp hrun
    cases hsame
    exact hx.leads hbody
  · intro r ds hrun a ha
    obtain ⟨⟨r', ds'⟩, hbody, hsame⟩ := Option.map_eq_some_iff.mp hrun
    cases hsame
    cases ha
    exact hx.gives hbody

theorem mono {V' : Machine → α → Prop} (hx : D.Keeps V x y m) (hV : ∀ m a, V m a → V' m a) : D.Keeps V' x y m :=
  ⟨hx.same, hx.told, hx.leads, fun hrun => hV _ _ (hx.gives hrun)⟩

theorem ite {p : Prop} [Decidable p] {x' y' : Course α} (h : p → D.Keeps V x y m) (h' : ¬p → D.Keeps V x' y' m) :
    D.Keeps V (if p then x else x') (if p then y else y') m := by
  by_cases hp : p
  · simpa only [if_pos hp] using h hp
  · simpa only [if_neg hp] using h' hp

end Keeps

end Courses

/-! ## Tasks -/

/-- the function to be called is allowed -/
def Callable (D : Discipline) (m : Machine) : Callee → Prop
  | .declared f => D.value m (.function f)
  | .builtin _ => True

/-- what the task is asked is allowed -/
def Asked (D : Discipline) (m : Machine) : Task → Prop
  | .owner scope _ | .expr scope _ | .exprs scope _ => D.scope m scope
  | .stmt scope s => D.scope m scope ∧ D.Admits s
  | .stmts scope ss last | .program scope ss last => D.scope m scope ∧ (∀ s ∈ ss, D.Admits s) ∧ D.value m last
  | .rounds scope _ body _ _ => D.scope m scope ∧ ∀ s ∈ body, D.Admits s
  | .call f args _ => D.value m f ∧ ∀ v ∈ args, D.value m v
  | .body callee args => D.Callable m callee ∧ ∀ v ∈ args, D.value m v
  | .handlers hs => ∀ h ∈ hs, D.value m h
  | .copy .. => True

/-- what the task gives is allowed -/
def Answered (D : Discipline) (m : Machine) : (t : Task) → t.Answer → Prop
  | .owner .., (o : Option ScopeId) => ∀ i, o = some i → D.scope m i
  | .expr .., (v : Value) | .call .., (v : Value) => D.value m v
  | .exprs .., (vs : List Value) => ∀ v ∈ vs, D.value m v
  | .stmt .., (r : ScopeId × Completion) => D.scope m r.1 ∧ D.value m r.2.value
  | .stmts .., (c : Completion) | .rounds .., (c : Completion) | .body .., (c : Completion) => D.value m c.value
  | .program .., (r : Except Diagnostic Value × ScopeId) => (∀ v, r.1 = .ok v → D.value m v) ∧ D.scope m r.2
  | .handlers .., _ | .copy .., _ => True

/-- what the operation gives is allowed -/
def Returns (D : Discipline) (m : Machine) (o : Outcome) : Prop := ∀ v, o = .ok v → D.value m v

theorem returns_outcome {r : Except Diagnostic Value} (h : ∀ v, r = .ok v → D.value m v) : D.Returns m (outcome r) := by
  intro v hv
  cases r with
  | error d => cases hv
  | ok w =>
    cases hv
    exact h v rfl

/-- tasks that are asked what is allowed keep to the discipline, and `watched` does the same -/
def RunsWithin (D : Discipline) (run watched : Task.Runner) : Prop :=
  ∀ (t : Task) (m : Machine), D.holds m → D.Asked m t → D.Keeps (fun m a => D.Answered m t a) (run t) (watched t) m

section Tasks

variable {run watched : Task.Runner} (L : D.Laws) (hrun : D.RunsWithin run watched)

theorem value_unit (L : D.Laws) (m : Machine) : D.value m .unit := L.made nofun trivial

theorem value_asBlock (L : D.Laws) {c : Completion} (h : D.value m c.value) : D.value m c.asBlock.value := by
  cases c with
  | normal v => exact value_unit L m
  | returned v => exact h

theorem keeps_trace (L : D.Laws) (hm : D.holds m) (function : Bytes) (stage : CallStage) :
    D.Keeps (fun _ _ => True) (Course.deed (.trace function stage)) (Course.deed (.trace function stage)) m :=
  .deed L hm trivial

theorem callable_of_calleeFor {f : Value} (hf : D.value m f) {args : List Value} {callee : Callee}
    (h : calleeFor f args = .ok callee) : D.Callable m callee := by
  have hof := of?_of_calleeFor h
  cases callee with
  | builtin b => trivial
  | declared g =>
    cases f with
    | function f =>
      cases hof
      exact hf
    | unit | number | string | bool | builtin | range | unknown => cases hof

include L hrun

theorem keeps_owner {scope : ScopeId} (hm : D.holds m) (hscope : D.scope m scope) (name : Bytes) :
    D.Keeps (fun m o => ∀ i, o = some i → D.scope m i) (Course.owner run scope name) (Course.owner watched scope name) m := by
  refine .bind (V := fun m s => s = m.world.store ∧ D.scope m scope) (.asks hm ⟨rfl, hscope⟩) fun s m' hleads hs => ?_
  obtain ⟨rfl, hscope⟩ := hs
  unfold Course.ownerIn
  split
  · refine .pure hleads.holds fun i hi => ?_
    cases hi
    exact hscope
  · split
    · rename_i p hp
      exact hrun (.owner p name) m' hleads.holds (L.parent hleads.holds hscope hp)
    · exact .pure hleads.holds nofun

theorem keeps_lookUp {scope : ScopeId} (hm : D.holds m) (hscope : D.scope m scope) (name : Bytes) :
    D.Keeps (fun m o => ∀ v, o = some v → D.value m v) (Course.lookUp run scope name) (Course.lookUp watched scope name)
      m := by
  refine .bind (hrun (.owner scope name) m hm hscope) fun o m' hleads ho => ?_
  cases o with
  | none => exact .pure hleads.holds nofun
  | some owner => exact .asks hleads.holds fun v hv => L.bound hleads.holds (ho owner rfl) hv

theorem keeps_expr {scope : ScopeId} (hm : D.holds m) (hscope : D.scope m scope) (e : Expr) :
    D.Keeps D.value (Course.expr run scope e) (Course.expr watched scope e) m := by
  cases e with
  | number pos value isInt literal => exact .pure hm (L.made (by rintro f ⟨⟩) (Number.sound_make value isInt))
  | string pos t => exact .pure hm (L.made (by rintro f ⟨⟩) trivial)
  | ident pos name =>
    refine .bind (keeps_lookUp L hrun hm hscope name) fun o m' hleads ho => ?_
    cases o with
    | none => exact .failAt hleads.holds _ _
    | some v => exact .pure hleads.holds (ho v rfl)
  | group pos inner | await pos inner => exact hrun (.expr scope inner) m hm hscope
  | binary pos op left right =>
    refine .bind (hrun (.expr scope left) m hm hscope) fun a m₁ h₁ _ => ?_
    refine .bind (hrun (.expr scope right) m₁ h₁.holds (h₁.scope hscope)) fun b m₂ h₂ _ => ?_
    refine .reads h₂.holds fun v hv => ?_
    obtain ⟨hplain, hsound⟩ := sound_binary pos right.pos op a b m₂ v hv
    exact L.made hplain hsound
  | range pos low high =>
    refine .bind (hrun (.expr scope low) m hm hscope) fun a m₁ h₁ _ => ?_
    refine .bind (hrun (.expr scope high) m₁ h₁.holds (h₁.scope hscope)) fun b m₂ h₂ _ => ?_
    refine .reads h₂.holds fun v hv => ?_
    obtain ⟨hplain, hsound⟩ := sound_range pos a b m₂ v hv
    exact L.made hplain hsound
  | call pos callee args =>
    refine .bind (hrun (.expr scope callee) m hm hscope) fun f m₁ h₁ hf => ?_
    refine .bind (keeps_trace L h₁.holds _ _) fun _ m₂ h₂ _ => ?_
    refine .bind (hrun (.exprs scope args) m₂ h₂.holds (h₂.scope (h₁.scope hscope))) fun vs m₃ h₃ hvs => ?_
    refine .bind (keeps_trace L h₃.holds _ _) fun _ m₄ h₄ _ => ?_
    exact hrun (.call f vs pos) m₄ h₄.holds ⟨h₄.value (h₃.value (h₂.value hf)), h₄.values hvs⟩

omit L in
theorem keeps_exprs {scope : ScopeId} (hm : D.holds m) (hscope : D.scope m scope) (es : List Expr) :
    D.Keeps (fun m vs => ∀ v ∈ vs, D.value m v) (Course.exprs run scope es) (Course.exprs watched scope es) m := by
  cases es with
  | nil => exact .pure hm (List.forall_mem_nil _)
  | cons e rest =>
    refine .bind (hrun (.expr scope e) m hm hscope) fun v m₁ h₁ hv => ?_
    refine .bind (hrun (.exprs scope rest) m₁ h₁.holds (h₁.scope hscope)) fun vs m₂ h₂ hvs => ?_
    exact .pure h₂.holds (List.forall_mem_cons.mpr ⟨h₂.value hv, hvs⟩)

/-- an assignment is allowed, so the binding may get a new value -/
theorem keeps_assign {pos : Pos} {name : Bytes} {x : Expr} (hallowed : D.stmt (.assign pos name x)) {scope : ScopeId}
    (hm : D.holds m) (hscope : D.scope m scope) {v : Value} (hv : D.value m v) :
    D.Keeps (fun _ _ => True) (Course.assign run pos scope name v) (Course.assign watched pos scope name v) m := by
  refine .bind (hrun (.owner scope name) m hm hscope) fun o m₁ h₁ ho => ?_
  cases o with
  | none => exact .failAt h₁.holds _ _
  | some owner =>
    refine .bind (.look h₁.holds) fun core m₂ h₂ _ => .ite (fun _ => .failAt h₂.holds _ _) fun _ => ?_
    have howner : D.scope m₂ owner := h₂.scope (ho owner rfl)
    exact .deed L (d := .set owner name v) h₂.holds ⟨L.assign hallowed owner, howner, h₂.value (h₁.value hv)⟩

theorem keeps_block {scope : ScopeId} (hm : D.holds m) (hscope : D.scope m scope) {ss : List Stmt}
    (hss : ∀ s ∈ ss, D.Admits s) :
    D.Keeps (fun m c => D.value m c.value) (Course.block run scope ss) (Course.block watched scope ss) m := by
  refine .bind (.deed L hm ⟨hscope, List.forall_mem_nil _⟩) fun inner m₁ h₁ hinner => ?_
  refine .bind (hrun (.stmts inner ss .unit) m₁ h₁.holds ⟨hinner.1, hss, value_unit L m₁⟩) fun c m₂ h₂ hc => ?_
  exact .pure h₂.holds (value_asBlock L hc)

theorem keeps_stmt {scope : ScopeId} (hm : D.holds m) (hscope : D.scope m scope) {s : Stmt} (hs : D.Admits s) :
    D.Keeps (fun m r => D.scope m r.1 ∧ D.value m r.2.value) (Course.stmt run scope s) (Course.stmt watched scope s) m := by
  cases s with
  | expr pos x =>
    refine .bind (hrun (.expr scope x) m hm hscope) fun v m₁ h₁ hv => ?_
    exact .pure h₁.holds ⟨h₁.scope hscope, hv⟩
  | letDecl pos name type init =>
    refine .bind (hrun (.expr scope init) m hm hscope) fun v m₁ h₁ hv => ?_
    refine .bind (.deed L h₁.holds (d := .declare scope (.value name v)) ⟨h₁.scope hscope, hv⟩) fun target m₂ h₂ ht => ?_
    exact .pure h₂.holds ⟨ht, value_unit L m₂⟩
  | fnDecl pos sig bodyPos body =>
    refine .bind (.deed L hm (d := .declare scope (.function sig body)) ⟨hscope, fun s => hs.inside⟩)
      fun target m₁ h₁ ht => ?_
    exact .pure h₁.holds ⟨ht, value_unit L m₁⟩
  | assign pos name value =>
    refine .bind (hrun (.expr scope value) m hm hscope) fun v m₁ h₁ hv => ?_
    refine .bind (keeps_assign L hrun hs.here h₁.holds (h₁.scope hscope) hv) fun _ m₂ h₂ _ => ?_
    exact .pure h₂.holds ⟨h₂.scope (h₁.scope hscope), value_unit L m₂⟩
  | cond pos test thenPos thenBody otherwise =>
    refine .bind (hrun (.expr scope test) m hm hscope) fun v m₁ h₁ _ => ?_
    refine .ite (fun _ => ?_) fun _ => ?_
    · have hthen : ∀ s ∈ thenBody, D.Admits s := fun s h => hs.inside (List.mem_append_left _ h)
      refine .bind (keeps_block L hrun h₁.holds (h₁.scope hscope) hthen) fun c m₂ h₂ hc => ?_
      exact .pure h₂.holds ⟨h₂.scope (h₁.scope hscope), hc⟩
    · cases otherwise with
      | none => exact .pure h₁.holds ⟨h₁.scope hscope, value_unit L m₁⟩
      | some s =>
        have helse : D.Admits s := hs.inside (List.mem_append_right _ (Option.mem_toList.mpr rfl))
        refine .bind (hrun (.stmt scope s) m₁ h₁.holds ⟨h₁.scope hscope, helse⟩) fun r m₂ h₂ hr => ?_
        exact .pure h₂.holds ⟨h₂.scope (h₁.scope hscope), hr.2⟩
  | loop pos var bounds bodyPos body =>
    refine .bind (hrun (.expr scope bounds) m hm hscope) fun v m₁ h₁ _ => ?_
    cases v with
    | range low high =>
      refine .bind (hrun (.rounds scope var body low high) m₁ h₁.holds ⟨h₁.scope hscope, fun s => hs.inside⟩)
        fun c m₂ h₂ hc => ?_
      exact .pure h₂.holds ⟨h₂.scope (h₁.scope hscope), hc⟩
    | unit | number | string | bool | function | builtin | unknown => exact .failAt h₁.holds _ _
  | ret pos value =>
    refine .bind (.look hm) fun frames m₁ h₁ _ => .ite (fun _ => .failAt h₁.holds _ _) fun _ => ?_
    cases value with
    | none => exact .pure h₁.holds ⟨h₁.scope hscope, value_unit L m₁⟩
    | some x =>
      refine .bind (hrun (.expr scope x) m₁ h₁.holds (h₁.scope hscope)) fun v m₂ h₂ hv => ?_
      exact .pure h₂.holds ⟨h₂.scope (h₁.scope hscope), hv⟩
  | block pos body =>
    refine .bind (keeps_block L hrun hm hscope fun s => hs.inside) fun c m₁ h₁ hc => ?_
    exact .pure h₁.holds ⟨h₁.scope hscope, hc⟩

omit L in
theorem keeps_stmts {scope : ScopeId} (hm : D.holds m) (hscope : D.scope m scope) {ss : List Stmt}
    (hss : ∀ s ∈ ss, D.Admits s) {last : Value} (hlast : D.value m last) :
    D.Keeps (fun m c => D.value m c.value) (Course.stmts run scope ss last) (Course.stmts watched scope ss last) m := by
  cases ss with
  | nil => exact .pure hm hlast
  | cons s rest =>
    rw [List.forall_mem_cons] at hss
    refine .bind (hrun (.stmt scope s) m hm ⟨hscope, hss.1⟩) fun r m₁ h₁ hr => ?_
    rcases r with ⟨inner, v | v⟩
    · exact hrun (.stmts inner rest v) m₁ h₁.holds ⟨hr.1, hss.2, hr.2⟩
    · exact .pure h₁.holds hr.2

theorem keeps_rounds {scope : ScopeId} (hm : D.holds m) (hscope : D.scope m scope) (var : Bytes) {body : List Stmt}
    (hbody : ∀ s ∈ body, D.Admits s) (next high : Int) :
    D.Keeps (fun m c => D.value m c.value) (Course.rounds run scope var body next high)
      (Course.rounds watched scope var body next high) m := by
  refine .ite (fun _ => ?_) fun _ => .pure hm (value_unit L m)
  have hnumber : ∀ b ∈ [(var, Value.number (Number.ofInt next))], D.value m b.2 :=
    List.forall_mem_singleton.mpr (L.made nofun (Number.sound_ofInt next))
  refine .bind (.deed L hm ⟨hscope, hnumber⟩) fun inner m₁ h₁ hinner => ?_
  refine .bind (hrun (.stmts inner body .unit) m₁ h₁.holds ⟨hinner.1, hbody, value_unit L m₁⟩) fun c m₂ h₂ hc => ?_
  cases c with
  | normal v =>
    exact hrun (.rounds scope var body (next + 1) high) m₂ h₂.holds ⟨h₂.scope (h₁.scope hscope), hbody⟩
  | returned v => exact .pure h₂.holds hc

/-! ### Calls -/

omit hrun in
theorem keeps_settle (hm : D.holds m) (callee : Callee) (pos : Pos) {r : Except Diagnostic Completion}
    (hr : ∀ c, r = .ok c → D.value m c.value) :
    D.Keeps D.value (Course.settle callee pos r) (Course.settle callee pos r) m := by
  have hleave : ∀ {m}, D.holds m → D.Keeps (fun _ _ => True) (Course.deed .leave) (Course.deed .leave) m :=
    fun hm => .deed L hm trivial
  rcases r with d | v | v
  · exact .bind (.look hm) fun frames m₁ h₁ _ => .bind (hleave h₁.holds) fun _ m₂ h₂ _ => .fail h₂.holds _
  · refine .bind (hleave hm) fun _ m₁ h₁ _ => .bind (keeps_trace L h₁.holds _ _) fun _ m₂ h₂ _ => ?_
    exact .bind (keeps_trace L h₂.holds _ _) fun _ m₃ h₃ _ => .pure h₃.holds (value_unit L m₃)
  · have hv : D.value m v := hr _ rfl
    refine .bind (hleave hm) fun _ m₁ h₁ _ => .bind (keeps_trace L h₁.holds _ _) fun _ m₂ h₂ _ => ?_
    refine .bind (keeps_trace L h₂.holds _ _) fun _ m₃ h₃ _ => ?_
    exact .pure h₃.holds (h₃.value (h₂.value (h₁.value hv)))

theorem keeps_call {f : Value} (hm : D.holds m) (hf : D.value m f) {args : List Value}
    (hargs : ∀ v ∈ args, D.value m v) (pos : Pos) :
    D.Keeps D.value (Course.call run f args pos) (Course.call watched f args pos) m := by
  unfold Course.call
  split
  · exact .failAt hm _ _
  · rename_i callee hcallee
    refine .bind (.look hm) fun i m₁ h₁ _ => .ite (fun _ => .failAt h₁.holds _ _) fun _ => ?_
    refine .bind (.deed L h₁.holds (d := .enter ⟨callee.name, pos⟩) trivial) fun _ m₂ h₂ _ => ?_
    refine .bind (keeps_trace L h₂.holds _ _) fun _ m₃ h₃ _ => ?_
    have hleads := h₁.trans (h₂.trans h₃)
    have hcallable : D.Callable m₃ callee := callable_of_calleeFor (hleads.value hf) hcallee
    refine .bind (hrun (.body callee args) m₃ h₃.holds ⟨hcallable, hleads.values hargs⟩).attempt fun r m₄ h₄ hr => ?_
    exact keeps_settle L h₄.holds callee pos hr

/-! ### Copies -/

omit L in
theorem keeps_copyTable (hm : D.holds m) (target : ScopeId) (t : Table) (c : Snapshot.Copying) :
    D.Keeps (fun _ _ => True) (Course.copyTable run target t c) (Course.copyTable watched target t c) m := by
  induction t generalizing m c with
  | nil => exact .pure hm trivial
  | cons b rest ih =>
    obtain ⟨name, v⟩ := b
    cases v with
    | function f => exact .bind (hrun (.copy f.scope c) m hm trivial) fun r m₁ h₁ _ => ih h₁.holds _
    | unit | number | string | bool | builtin | range | unknown => exact ih hm _

omit L in
theorem keeps_copy (hm : D.holds m) (id : ScopeId) (c : Snapshot.Copying) :
    D.Keeps (fun _ _ => True) (Course.copy run id c) (Course.copy watched id c) m := by
  unfold Course.copy
  split
  · exact .pure hm trivial
  · split
    · exact .pure hm trivial
    · exact .pure hm trivial
    · rename_i scope _ _
      have haround : D.Keeps (fun _ _ => True) (Course.copyAround run scope.parent c)
          (Course.copyAround watched scope.parent c) m := by
        cases scope.parent with
        | none => exact .pure hm trivial
        | some p => exact hrun (.copy p c) m hm trivial
      refine .bind haround fun r m₁ h₁ _ => .bind (keeps_copyTable hrun h₁.holds _ _ _) fun c m₂ h₂ _ => ?_
      exact .pure h₂.holds trivial

/-! ### Builtins and bodies -/

theorem keeps_primitive (hm : D.holds m) (p : Primitive) {args : List Value} (hargs : ∀ v ∈ args, D.value m v) :
    D.Keeps D.value (Course.primitive run p args) (Course.primitive watched p args) m := by
  have hidle : ∀ {m}, D.holds m → (∀ v ∈ args, D.value m v) →
      D.Keeps D.value (Course.deed (.builtin p args)) (Course.deed (.builtin p args)) m :=
    fun hm hargs => .deed L (d := .builtin p args) hm hargs
  unfold Course.primitive
  split
  · exact hidle hm hargs
  · rename_i f herrand
    refine .bind (hidle hm hargs) fun _ m₁ h₁ _ => ?_
    exact hrun (.call f [] .unknown) m₁ h₁.holds
      ⟨h₁.value (hargs f (Errand.mem_of?.1 f herrand)), List.forall_mem_nil _⟩
  · rename_i event _
    refine .bind (V := fun m hs => ∀ h ∈ hs, D.value m h) (.asks hm (L.handlers hm event)) fun hs m₁ h₁ hhs => ?_
    refine .bind (hidle h₁.holds (h₁.values hargs)) fun v m₂ h₂ hv => ?_
    refine .bind (hrun (.handlers hs) m₂ h₂.holds (h₂.values hhs)) fun _ m₃ h₃ _ => ?_
    exact .pure h₃.holds (h₃.value hv)
  · rename_i f _
    refine .bind (.look hm) fun c m₁ h₁ _ => .bind (hrun (.copy f.scope c) m₁ h₁.holds trivial) fun _ m₂ h₂ _ => ?_
    exact hidle h₂.holds (h₂.values (h₁.values hargs))

omit L in
theorem keeps_program {scope : ScopeId} (hm : D.holds m) (hscope : D.scope m scope) {ss : List Stmt}
    (hss : ∀ s ∈ ss, D.Admits s) {last : Value} (hlast : D.value m last) :
    D.Keeps (fun m r => (∀ v, r.1 = .ok v → D.value m v) ∧ D.scope m r.2) (Course.program run scope ss last)
      (Course.program watched scope ss last) m := by
  cases ss with
  | nil =>
    refine .pure hm ⟨fun v hv => ?_, hscope⟩
    cases hv
    exact hlast
  | cons s rest =>
    rw [List.forall_mem_cons] at hss
    refine .bind (hrun (.stmt scope s) m hm ⟨hscope, hss.1⟩).attempt fun r m₁ h₁ hr => ?_
    rcases r with d | ⟨inner, v | v⟩
    · exact .pure h₁.holds ⟨nofun, h₁.scope hscope⟩
    · exact hrun (.program inner rest v) m₁ h₁.holds ⟨(hr _ rfl).1, hss.2, (hr _ rfl).2⟩
    · refine .pure h₁.holds ⟨fun w hw => ?_, (hr _ rfl).1⟩
      cases hw
      exact (hr _ rfl).2

/-! ### Operations of the host -/

omit hrun in
theorem keeps_bindHere {scope : ScopeId} (hm : D.holds m) (hscope : D.scope m scope) (hsets : D.sets scope) (name : Bytes)
    {v : Value} (hv : D.value m v) :
    D.Keeps (fun _ _ => True) (Course.bindHere scope name v) (Course.bindHere scope name v) m := by
  refine .bind (.look hm) fun bound m₁ h₁ _ => .ite (fun _ => ?_) fun _ => ?_
  · exact .deed L (d := .set scope name v) h₁.holds ⟨hsets, h₁.scope hscope, h₁.value hv⟩
  · refine .bind (.deed L (d := .declare scope (.value name v)) h₁.holds ⟨h₁.scope hscope, h₁.value hv⟩) fun _ m₂ h₂ _ => ?_
    exact .pure h₂.holds trivial

theorem keeps_setVisible {scope : ScopeId} (hm : D.holds m) (hscope : D.scope m scope) (hsets : ∀ owner, D.sets owner)
    (name : Bytes) {v : Value} (hv : D.value m v) :
    D.Keeps (fun _ _ => True) (Course.setVisible run scope name v) (Course.setVisible watched scope name v) m := by
  refine .bind (hrun (.owner scope name) m hm hscope) fun o m₁ h₁ ho => ?_
  cases o with
  | none => exact .pure h₁.holds trivial
  | some owner =>
    refine .bind (.deed L (d := .set owner name v) h₁.holds ⟨hsets owner, ho owner rfl, h₁.value hv⟩) fun _ m₂ h₂ _ => ?_
    exact .pure h₂.holds trivial

theorem keeps_exec (hm : D.holds m) {p : Program} {scope : Option ScopeId} (hscope : ∀ i, scope = some i → D.scope m i)
    (hp : ∀ s ∈ p.stmts, D.Admits s) : D.Keeps D.Returns (Course.exec run p scope) (Course.exec watched p scope) m := by
  refine .ite (fun _ => ?_) fun _ => .pure hm nofun
  refine .bind (V := D.scope) (.asks hm ?_) fun first m₁ h₁ hfirst => ?_
  · cases scope with
    | none => exact L.global hm
    | some i => exact hscope i rfl
  refine .bind (hrun (.program first p.stmts .unit) m₁ h₁.holds ⟨hfirst, hp, value_unit L m₁⟩) fun r m₂ h₂ hr => ?_
  refine .bind (.look h₂.holds) fun global m₃ h₃ _ => ?_
  have hvalue : ∀ v, r.1 = .ok v → D.value m₃ v := fun v hv => h₃.value (hr.1 v hv)
  refine .ite (fun _ => ?_) fun _ => .pure h₃.holds (returns_outcome hvalue)
  refine .bind (.deed L (d := .moveGlobal r.2) h₃.holds (h₃.scope hr.2)) fun _ m₄ h₄ _ => ?_
  exact .pure h₄.holds (returns_outcome fun v hv => h₄.value (hvalue v hv))

theorem keeps_execSource (hm : D.holds m) (name : Bytes) {source : Bytes}
    (hp : ∀ s ∈ (Program.ofSource source).stmts, D.Admits s) :
    D.Keeps D.Returns (Course.execSource run name source) (Course.execSource watched name source) m :=
  .bind (.deed L (d := .note _) hm trivial) fun _ _ h₁ _ => keeps_exec L hrun h₁.holds nofun hp

theorem keeps_answer (hm : D.holds m) (hmemory : ∀ v ∈ m.world.memory, D.value m v) (r : HostRequest)
    (hmeets : r.Meets D.law m) (hspares : r.Spares D.sets D.stmt) :
    D.Keeps (fun m a => r.AnswerMeets D.law m a ∧ r.Opens D.sets a) (Course.answer run r) (Course.answer watched r) m := by
  cases r with
  | call f args => exact (hrun (.call f args .unknown) m hm hmeets).attempt.mono fun _ _ h => ⟨h, trivial⟩
  | exec p scope => exact (keeps_exec L hrun hm hmeets hspares).mono fun _ _ h => ⟨h, trivial⟩
  | execSource name source => exact (keeps_execSource L hrun hm name hspares).mono fun _ _ h => ⟨h, trivial⟩
  | register name arity index =>
    have hbuiltin : ∀ m, D.value m (.builtin (.ofHost name arity index)) := fun _ => L.made nofun trivial
    refine .bind (V := D.scope) (.asks hm (L.core hm)) fun core m₁ h₁ hcore => ?_
    exact (keeps_bindHere L h₁.holds hcore (hspares core) name (hbuiltin m₁)).mono fun _ _ _ => ⟨trivial, trivial⟩
  | define scope name v =>
    exact (keeps_bindHere L hm hmeets.1 hspares name hmeets.2).mono fun _ _ _ => ⟨trivial, trivial⟩
  | set scope name v =>
    exact (keeps_setVisible L hrun hm hmeets.1 hspares name hmeets.2).mono fun _ _ _ => ⟨trivial, trivial⟩
  | lookUp scope name => exact (keeps_lookUp L hrun hm hmeets name).mono fun _ _ h => ⟨h, trivial⟩
  | core => exact .asks hm ⟨L.core hm, trivial⟩
  | global => exact .asks hm ⟨L.global hm, trivial⟩
  | newScope parent => exact .deed L (d := .openScope parent []) hm ⟨hmeets, List.forall_mem_nil _⟩
  | kept => exact .asks hm ⟨hmemory, trivial⟩
  | remember vs => exact (Keeps.deed L (d := .remember vs) hm hmeets).mono fun _ _ _ => ⟨trivial, trivial⟩

/-- the induction is on the action; the host's operations stay where they are -/
theorem keeps_host (hm : D.holds m) {operation : HostOperation} (hmem : operation ∈ m.world.hosts) {action : HostAction}
    (hmeets : action.Meets D.law m)
    (hspares : action.AsksGiven (HostRequest.Opens D.sets) (HostRequest.Spares D.sets D.stmt)) :
    D.Keeps D.value (Course.host run action) (Course.host watched action) m := by
  induction action generalizing m with
  | answer v => exact .pure hm hmeets
  | fail d => exact .fail hm d
  | ask r next ih =>
    refine .bind (keeps_answer L hrun hm (L.memory hm hmem) r hmeets.1 hspares.1) fun a m₁ h₁ ha => ?_
    refine ih a h₁.holds ?_ (hmeets.2 m₁ h₁.later a ha.1) (hspares.2 a ha.2)
    rw [h₁.hosts]
    exact hmem

theorem keeps_builtin (hm : D.holds m) (b : Builtin) {args : List Value} (hargs : ∀ v ∈ args, D.value m v) :
    D.Keeps D.value (Course.builtin run b args) (Course.builtin watched b args) m := by
  unfold Course.builtin
  split
  · exact keeps_primitive L hrun hm _ hargs
  · rename_i index _
    refine .bind (V := fun m o => ∀ operation, o = some operation → operation ∈ m.world.hosts)
      (.asks hm fun operation => Array.mem_of_getElem?) fun o m₁ h₁ ho => ?_
    cases o with
    | none => exact .pure h₁.holds (value_unit L m₁)
    | some operation =>
      have hmem := ho operation rfl
      obtain ⟨hmeets, hspares⟩ := L.host h₁.holds hmem
      have hlater : D.law.later m₁ m₁ := ⟨fun _ => id, fun _ => id⟩
      exact keeps_host L hrun h₁.holds hmem (hmeets m₁ hlater args (h₁.values hargs)) (hspares args)

theorem keeps_body (hm : D.holds m) {callee : Callee} (hcallee : D.Callable m callee) {args : List Value}
    (hargs : ∀ v ∈ args, D.value m v) :
    D.Keeps (fun m c => D.value m c.value) (Course.body run args callee) (Course.body watched args callee) m := by
  cases callee with
  | builtin b => exact .bind (keeps_builtin L hrun hm b hargs) fun v m₁ h₁ hv => .pure h₁.holds hv
  | declared f =>
    obtain ⟨hscope, hbody⟩ := L.closure hcallee
    have hbindings : ∀ b ∈ (f.sig.params.map Param.name).zip args, D.value m b.2 :=
      fun b hb => hargs b.2 (List.of_mem_zip hb).2
    refine .bind (.deed L hm ⟨hscope, hbindings⟩) fun scope m₁ h₁ hinner => ?_
    exact hrun (.stmts scope f.body .unit) m₁ h₁.holds ⟨hinner.1, hbody, value_unit L m₁⟩

omit L in
theorem keeps_handlers (hm : D.holds m) {hs : List Value} (hhs : ∀ h ∈ hs, D.value m h) :
    D.Keeps (fun _ _ => True) (Course.handlers run hs) (Course.handlers watched hs) m := by
  cases hs with
  | nil => exact .pure hm trivial
  | cons h rest =>
    rw [List.forall_mem_cons] at hhs
    refine .bind (hrun (.call h [] .unknown) m hm ⟨hhs.1, List.forall_mem_nil _⟩) fun _ m₁ h₁ _ => ?_
    exact hrun (.handlers rest) m₁ h₁.holds (h₁.values hhs.2)

theorem keeps_expand (t : Task) (hm : D.holds m) (ht : D.Asked m t) :
    D.Keeps (fun m a => D.Answered m t a) (t.expand run) (t.expand watched) m := by
  cases t with
  | owner scope name => exact keeps_owner L hrun hm ht name
  | expr scope e => exact keeps_expr L hrun hm ht e
  | exprs scope es => exact keeps_exprs hrun hm ht es
  | stmt scope s => exact keeps_stmt L hrun hm ht.1 ht.2
  | stmts scope ss last => exact keeps_stmts hrun hm ht.1 ht.2.1 ht.2.2
  | rounds scope var body next high => exact keeps_rounds L hrun hm ht.1 var ht.2 next high
  | call f args pos => exact keeps_call L hrun hm ht.1 ht.2 pos
  | body callee args => exact keeps_body L hrun hm ht.1 ht.2
  | handlers hs => exact keeps_handlers hrun hm ht
  | copy id c => exact keeps_copy hrun hm id c
  | program scope ss last => exact keeps_program hrun hm ht.1 ht.2.1 ht.2.2

end Tasks

/-! ## Runs -/

open Classical in
/-- the course of a task that is carried out only as long as the machine is as asked, and the task is asked and gives only
what is allowed -/
noncomputable def watch (D : Discipline) (t : Task) (x : Course t.Answer) : Course t.Answer := fun m =>
  if D.holds m ∧ D.Asked m t then
    match x m with
    | none => none
    | some (r, ds) =>
      if D.holds (performAll ds m) ∧ ∀ a, r = .ok a → D.Answered (performAll ds m) t a then some (r, ds) else none
  else none

/-- carries out a task in which at most `n` tasks are nested, and watches each of them -/
noncomputable def watchWithin (D : Discipline) : Nat → Task.Runner
  | 0 => fun _ _ => none
  | n + 1 => fun t => D.watch t (t.expand (D.watchWithin n))

theorem keeps_watch {t : Task} {x y : Course t.Answer} (hm : D.holds m) (ht : D.Asked m t)
    (h : D.Keeps (fun m a => D.Answered m t a) x y m) : D.Keeps (fun m a => D.Answered m t a) x (D.watch t y) m := by
  refine ⟨?_, h.told, h.leads, h.gives⟩
  rw [watch, if_pos ⟨hm, ht⟩, h.same]
  cases hx : x m with
  | none => rfl
  | some r =>
    obtain ⟨r, ds⟩ := r
    have hgives : ∀ a, r = .ok a → D.Answered (performAll ds m) t a := by
      intro a ha
      exact h.gives (ha ▸ hx)
    simp only [if_pos (And.intro (h.leads hx).holds hgives)]

/-- **Runs within a discipline.** Where its laws hold, a task that is asked only what is allowed keeps to the discipline,
and so do all tasks in it: the watched run does the same. -/
theorem keeps_runWithin (L : D.Laws) (n : Nat) : D.RunsWithin (Task.runWithin n) (D.watchWithin n) := by
  induction n with
  | zero => exact fun t m _ _ => ⟨rfl, nofun, nofun, nofun⟩
  | succ n ih => exact fun t m hm ht => keeps_watch hm ht (keeps_expand L ih t hm ht)

end Discipline

/-! ## Operations -/

namespace Operation

variable (run : Task.Runner)

/-- carries out the operation, with `run` for the tasks -/
def runBy : Operation → Course Outcome
  | .exec p scope => Course.exec run p scope
  | .execSource name source => Course.execSource run name source
  | .call f args => do
    let r ← Course.attempt (run (.call f args .unknown))
    return outcome r

/-- carries out operations one after the other, with `run` for the tasks -/
def runEachBy : List Operation → Course (List Outcome)
  | [] => return []
  | op :: ops => do
    let outcome ← op.runBy run
    let outcomes ← runEachBy ops
    return outcome :: outcomes

theorem runWithin_eq (n : Nat) (op : Operation) : op.runWithin n = op.runBy (Task.runWithin n) := by
  cases op <;> rfl

theorem runEachWithin_eq (n : Nat) (ops : List Operation) : runEachWithin n ops = runEachBy (Task.runWithin n) ops := by
  induction ops with
  | nil => rfl
  | cons op ops ih => rw [runEachWithin, runEachBy, runWithin_eq, ih]

end Operation

namespace Discipline

variable {D : Discipline} {m : Machine} {run watched : Task.Runner}

/-- what the operation is told is allowed -/
def Takes (D : Discipline) (m : Machine) : Operation → Prop
  | .exec p scope => (∀ i, scope = some i → D.scope m i) ∧ ∀ s ∈ p.stmts, D.Admits s
  | .execSource _ source => ∀ s ∈ (Program.ofSource source).stmts, D.Admits s
  | .call f args => D.value m f ∧ ∀ v ∈ args, D.value m v

theorem keeps_operation (L : D.Laws) (hrun : D.RunsWithin run watched) (hm : D.holds m) (op : Operation)
    (hop : D.Takes m op) : D.Keeps D.Returns (op.runBy run) (op.runBy watched) m := by
  cases op with
  | exec p scope => exact keeps_exec L hrun hm hop.1 hop.2
  | execSource name source => exact keeps_execSource L hrun hm name hop
  | call f args =>
    refine .bind (hrun (.call f args .unknown) m hm hop).attempt fun r m₁ h₁ hr => ?_
    exact .pure h₁.holds (returns_outcome hr)

/-- operations that are told only what is allowed whenever their turn comes -/
theorem keeps_each (L : D.Laws) (hrun : D.RunsWithin run watched) (hm : D.holds m) {ops : List Operation}
    (hops : ∀ op ∈ ops, ∀ m, D.holds m → D.Takes m op) :
    D.Keeps (fun m os => ∀ o ∈ os, D.Returns m o) (Operation.runEachBy run ops) (Operation.runEachBy watched ops) m := by
  induction ops generalizing m with
  | nil => exact .pure hm (List.forall_mem_nil _)
  | cons op ops ih =>
    rw [List.forall_mem_cons] at hops
    refine .bind (keeps_operation L hrun hm _ (hops.1 m hm)) fun o m₁ h₁ ho => ?_
    refine .bind (ih h₁.holds hops.2) fun os m₂ h₂ hos => .pure h₂.holds ?_
    exact List.forall_mem_cons.mpr ⟨fun v hv => h₂.value (ho v hv), hos⟩

end Discipline

end Ouroboros
