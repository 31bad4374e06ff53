/-
Evaluation treats scopes alike.

A pairing relates scopes of two machines. When two machines agree, up to the pairing, in everything that evaluation reads,
and deeds that agree up to the pairing keep it so (`Correspondence`), then a task on the one machine and the same task, up
to the pairing, on the other end alike: both give something that agrees, or both fail in the same way, and they do the
same deeds, up to the pairing (`Eval.matches_runWithin`).

Nothing here says what the pairing is. Evaluation passes scopes on and compares them with the scope of the builtins; it
does not look at their numbers. So each choice of a pairing and of a relation between machines says something else about
runs: that they do not see the global scope, that they stay among the scopes they start from, that they are the same
wherever their scopes stand in the store.
-/
import Mathlib.Data.List.Forall2
import Ouroboros.Proofs.Execution.Tasks

namespace Ouroboros

/-- which scopes of one machine stand for which of another -/
abbrev Pairing := ScopeId → ScopeId → Prop

variable {P : Pairing}

/-! ## Values, operations, deeds and tasks up to a pairing -/

/-- the same value, but for the scope of a function -/
inductive Value.Paired (P : Pairing) : Value → Value → Prop where
  | function (sig : Signature) (body : List Stmt) {i i' : ScopeId} (h : P i i') :
    Paired P (.function ⟨sig, body, i⟩) (.function ⟨sig, body, i'⟩)
  | plain {v : Value} (h : v.IsPlain) : Paired P v v

namespace Value.Paired

variable {v v' : Value}

theorem unit : Value.Paired P .unit .unit := .plain nofun

theorem number {n : Number} : Value.Paired P (.number n) (.number n) := .plain nofun

theorem typeName (h : v.Paired P v') : v'.typeName = v.typeName := by
  cases h <;> rfl

theorem callName (h : v.Paired P v') : v'.callName = v.callName := by
  cases h <;> rfl

theorem isTrue (h : v.Paired P v') : v'.isTrue = v.isTrue := by
  cases h <;> rfl

theorem isFunction (h : v.Paired P v') : v'.isFunction = v.isFunction := by
  cases h <;> rfl

theorem shown (h : v.Paired P v') : v'.shown = v.shown := by
  cases h <;> rfl

theorem mono {Q : Pairing} (h : v.Paired P v') (hPQ : ∀ i i', P i i' → Q i i') : v.Paired Q v' := by
  cases h with
  | function sig body h => exact .function sig body (hPQ _ _ h)
  | plain h => exact .plain h

end Value.Paired

/-- the same completion, but for the scopes of functions -/
inductive Completion.Paired (P : Pairing) : Completion → Completion → Prop where
  | normal {v v' : Value} (h : v.Paired P v') : Paired P (.normal v) (.normal v')
  | returned {v v' : Value} (h : v.Paired P v') : Paired P (.returned v) (.returned v')

theorem Completion.Paired.asBlock {c c' : Completion} (h : c.Paired P c') : c.asBlock.Paired P c'.asBlock := by
  cases h with
  | normal => exact .normal .unit
  | returned h => exact .returned h

/-- both give something, related by `V`, or both fail in the same way -/
inductive EndsAlike {ε α β : Type} (V : α → β → Prop) : Except ε α → Except ε β → Prop where
  | ok {a : α} {b : β} (h : V a b) : EndsAlike V (.ok a) (.ok b)
  | error (e : ε) : EndsAlike V (.error e) (.error e)

/-! ### Operations of a host -/

/-- what else of two machines is paired: the global scopes, the scopes of the builtins, and what the hosts keep -/
structure Common where
  global : Prop
  core : Prop
  memory : Prop

variable {K : Common}

/-- the same question, but for the scopes; it is about nothing that is not common to both machines -/
inductive HostRequest.Paired (P : Pairing) (K : Common) : HostRequest → HostRequest → Prop where
  | call {f f' : Value} {vs vs' : List Value} (hf : f.Paired P f') (hvs : List.Forall₂ (Value.Paired P) vs vs') :
    Paired P K (.call f vs) (.call f' vs')
  | exec (p : Program) {o o' : Option ScopeId} (h : Option.Rel P o o') (hglobal : K.global) :
    Paired P K (.exec p o) (.exec p o')
  | execSource (name source : Bytes) (hglobal : K.global) : Paired P K (.execSource name source) (.execSource name source)
  | register (name : Bytes) (arity : Option Nat) (index : Nat) (hcore : K.core) :
    Paired P K (.register name arity index) (.register name arity index)
  | define {i i' : ScopeId} (name : Bytes) {v v' : Value} (h : P i i') (hv : v.Paired P v') :
    Paired P K (.define i name v) (.define i' name v')
  | set {i i' : ScopeId} (name : Bytes) {v v' : Value} (h : P i i') (hv : v.Paired P v') :
    Paired P K (.set i name v) (.set i' name v')
  | lookUp {i i' : ScopeId} (name : Bytes) (h : P i i') : Paired P K (.lookUp i name) (.lookUp i' name)
  | core (hcore : K.core) : Paired P K .core .core
  | global (hglobal : K.global) : Paired P K .global .global
  | newScope {i i' : ScopeId} (h : P i i') : Paired P K (.newScope i) (.newScope i')
  | kept (hmemory : K.memory) : Paired P K .kept .kept
  | remember {vs vs' : List Value} (hvs : List.Forall₂ (Value.Paired P) vs vs') (hmemory : K.memory) :
    Paired P K (.remember vs) (.remember vs')

/-- what two questions are answered agrees -/
def HostRequest.AnswersPaired (P : Pairing) : (r r' : HostRequest) → r.Answer → r'.Answer → Prop
  | .call .., .call .., (a : Except Diagnostic Value), (a' : Except Diagnostic Value) => EndsAlike (Value.Paired P) a a'
  | .exec .., .exec .., (a : Outcome), (a' : Outcome)
  | .execSource .., .execSource .., (a : Outcome), (a' : Outcome) => EndsAlike (Value.Paired P) a a'
  | .set .., .set .., (b : Bool), (b' : Bool) => b' = b
  | .lookUp .., .lookUp .., (o : Option Value), (o' : Option Value) => Option.Rel (Value.Paired P) o o'
  | .core, .core, (i : ScopeId), (i' : ScopeId) => P i i'
  | .global, .global, (i : ScopeId), (i' : ScopeId) => P i i'
  | .newScope _, .newScope _, (i : ScopeId), (i' : ScopeId) => P i i'
  | .kept, .kept, (vs : List Value), (vs' : List Value) => List.Forall₂ (Value.Paired P) vs vs'
  | _, _, _, _ => True

/-- the same action, but for the scopes: as long as the answers agree, the questions do -/
inductive HostAction.Paired (P : Pairing) (K : Common) : HostAction → HostAction → Prop where
  | answer {v v' : Value} (h : v.Paired P v') : Paired P K (.answer v) (.answer v')
  | fail (d : Diagnostic) : Paired P K (.fail d) (.fail d)
  | ask {r r' : HostRequest} {next : r.Answer → HostAction} {next' : r'.Answer → HostAction} (hr : r.Paired P K r')
    (hnext : ∀ a a', r.AnswersPaired P r' a a' → Paired P K (next a) (next' a')) :
    Paired P K (.ask r next) (.ask r' next')

/-- the same operation, but for the scopes, on arguments that agree -/
def HostOperation.Paired (P : Pairing) (K : Common) (operation operation' : HostOperation) : Prop :=
  ∀ vs vs', List.Forall₂ (Value.Paired P) vs vs' → (operation vs).Paired P K (operation' vs')

/-! ### Deeds and tasks -/

/-- bindings of the same names -/
abbrev BindingsPaired (P : Pairing) : List (Bytes × Value) → List (Bytes × Value) → Prop :=
  List.Forall₂ fun b b' => b'.1 = b.1 ∧ b.2.Paired P b'.2

/-- the same declaration, but for the scopes of functions -/
inductive Declaration.Paired (P : Pairing) : Declaration → Declaration → Prop where
  | value (name : Bytes) {v v' : Value} (h : v.Paired P v') : Paired P (.value name v) (.value name v')
  | function (sig : Signature) (body : List Stmt) : Paired P (.function sig body) (.function sig body)

theorem Declaration.Paired.name {d d' : Declaration} (h : d.Paired P d') : d'.name = d.name := by
  cases h <;> rfl

theorem Declaration.Paired.bound {d d' : Declaration} (h : d.Paired P d') {i i' : ScopeId} (hi : P i i') :
    (d.bound i).Paired P (d'.bound i') := by
  cases h with
  | value name h => exact h
  | function sig body => exact .function sig body hi

namespace Deed

/-- the same deed of a task, but for the scopes -/
inductive Paired (P : Pairing) : Deed → Deed → Prop where
  | openScope {i i' : ScopeId} {bs bs' : List (Bytes × Value)} (h : P i i') (hbs : BindingsPaired P bs bs') :
    Paired P (.openScope i bs) (.openScope i' bs')
  | declare {i i' : ScopeId} {d d' : Declaration} (h : P i i') (hd : d.Paired P d') :
    Paired P (.declare i d) (.declare i' d')
  | set {i i' : ScopeId} (name : Bytes) {v v' : Value} (h : P i i') (hv : v.Paired P v') :
    Paired P (.set i name v) (.set i' name v')
  | enter (frame : Frame) : Paired P (.enter frame) (.enter frame)
  | leave : Paired P .leave .leave
  | trace (function : Bytes) (stage : Eval.CallStage) : Paired P (.trace function stage) (.trace function stage)
  | builtin (p : Primitive) {vs vs' : List Value} (h : List.Forall₂ (Value.Paired P) vs vs') :
    Paired P (.builtin p vs) (.builtin p vs')
  | moveGlobal {i i' : ScopeId} (h : P i i') : Paired P (.moveGlobal i) (.moveGlobal i')
  | note (entry : LogEntry) : Paired P (.note entry) (.note entry)
  | remember {vs vs' : List Value} (h : List.Forall₂ (Value.Paired P) vs vs') : Paired P (.remember vs) (.remember vs')

/-- what two deeds give agrees -/
def AnswersPaired (P : Pairing) : (d d' : Deed) → d.Answer → d'.Answer → Prop
  | .openScope .., .openScope .., (i : ScopeId), (i' : ScopeId) => P i i'
  | .declare .., .declare .., (i : ScopeId), (i' : ScopeId) => P i i'
  | .builtin .., .builtin .., (v : Value), (v' : Value) => v.Paired P v'
  | _, _, _, _ => True

/-- every deed meets `G` on the machine on which it is done -/
def Along (G : Deed → Machine → Prop) : List Deed → Machine → Prop
  | [], _ => True
  | d :: deeds, m => G d m ∧ Along G deeds (d.effect m)

theorem along_append {G : Deed → Machine → Prop} {deeds deeds' : List Deed} {m : Machine} :
    Along G (deeds ++ deeds') m ↔ Along G deeds m ∧ Along G deeds' (performAll deeds m) := by
  induction deeds generalizing m with
  | nil => simp [Along]
  | cons d deeds ih => simp [Along, ih, and_assoc]

end Deed

namespace Eval

/-- the same function to be called, but for its scope -/
inductive Callee.Paired (P : Pairing) : Callee → Callee → Prop where
  | declared (sig : Signature) (body : List Stmt) {i i' : ScopeId} (h : P i i') :
    Paired P (.declared ⟨sig, body, i⟩) (.declared ⟨sig, body, i'⟩)
  | builtin (b : Builtin) : Paired P (.builtin b) (.builtin b)

/-- the same left to tasks; which scopes are copied does not matter to them -/
inductive Errand.Paired (P : Pairing) : Errand → Errand → Prop where
  | call {f f' : Value} (h : f.Paired P f') : Paired P (.call f) (.call f')
  | handlers (event : Bytes) : Paired P (.handlers event) (.handlers event)
  | copies (f f' : Closure) : Paired P (.copies f) (.copies f')

theorem Callee.Paired.name {c c' : Callee} (h : c.Paired P c') : c'.name = c.name := by
  cases h <;> rfl

namespace Task

/-- the same task, but for the scopes -/
inductive Paired (P : Pairing) : Task → Task → Prop where
  | owner {i i' : ScopeId} (h : P i i') (name : Bytes) : Paired P (.owner i name) (.owner i' name)
  | expr {i i' : ScopeId} (h : P i i') (e : Expr) : Paired P (.expr i e) (.expr i' e)
  | exprs {i i' : ScopeId} (h : P i i') (es : List Expr) : Paired P (.exprs i es) (.exprs i' es)
  | stmt {i i' : ScopeId} (h : P i i') (s : Stmt) : Paired P (.stmt i s) (.stmt i' s)
  | stmts {i i' : ScopeId} (h : P i i') (ss : List Stmt) {v v' : Value} (hv : v.Paired P v') :
    Paired P (.stmts i ss v) (.stmts i' ss v')
  | rounds {i i' : ScopeId} (h : P i i') (var : Bytes) (body : List Stmt) (next high : Int) :
    Paired P (.rounds i var body next high) (.rounds i' var body next high)
  | call {f f' : Value} {vs vs' : List Value} (hf : f.Paired P f') (hvs : List.Forall₂ (Value.Paired P) vs vs')
    (pos : Pos) : Paired P (.call f vs pos) (.call f' vs' pos)
  | body {c c' : Callee} {vs vs' : List Value} (hc : c.Paired P c') (hvs : List.Forall₂ (Value.Paired P) vs vs') :
    Paired P (.body c vs) (.body c' vs')
  | handlers {hs hs' : List Value} (h : List.Forall₂ (Value.Paired P) hs hs') : Paired P (.handlers hs) (.handlers hs')
  | program {i i' : ScopeId} (h : P i i') (ss : List Stmt) {v v' : Value} (hv : v.Paired P v') :
    Paired P (.program i ss v) (.program i' ss v')

end Task

/-- what two tasks give agrees -/
def Task.AnswersPaired (P : Pairing) : (t t' : Task) → t.Answer → t'.Answer → Prop
  | .owner .., .owner .., (o : Option ScopeId), (o' : Option ScopeId) => Option.Rel P o o'
  | .expr .., .expr .., (v : Value), (v' : Value) | .call .., .call .., (v : Value), (v' : Value) => v.Paired P v'
  | .exprs .., .exprs .., (vs : List Value), (vs' : List Value) => List.Forall₂ (Value.Paired P) vs vs'
  | .stmt .., .stmt .., (r : ScopeId × Completion), (r' : ScopeId × Completion) => P r.1 r'.1 ∧ r.2.Paired P r'.2
  | .stmts .., .stmts .., (c : Completion), (c' : Completion)
  | .rounds .., .rounds .., (c : Completion), (c' : Completion)
  | .body .., .body .., (c : Completion), (c' : Completion) => c.Paired P c'
  | .program .., .program .., (r : Except Diagnostic Value × ScopeId), (r' : Except Diagnostic Value × ScopeId) =>
    EndsAlike (Value.Paired P) r.1 r'.1 ∧ P r.2 r'.2
  | _, _, _, _ => True

end Eval

/-! ## Machines up to a pairing -/

/-- machines related by `R` agree, up to the pairing, in what evaluation reads, and stay related when the same deeds, up to
the pairing, are done on both; `K` is what else of them is paired, and `G` and `G'` are what is known of a deed on the
machine on which it is done -/
structure Correspondence (P : Pairing) (K : Common) (R : Machine → Machine → Prop) (G G' : Deed → Machine → Prop) : Prop
    where
  bound : ∀ {m m' : Machine}, R m m' → ∀ {i i' : ScopeId}, P i i' → ∀ name,
    Option.Rel (Value.Paired P) (m.world.store.bound? i name) (m'.world.store.bound? i' name)
  parent : ∀ {m m' : Machine}, R m m' → ∀ {i i' : ScopeId}, P i i' →
    Option.Rel P (m.world.store.parent? i) (m'.world.store.parent? i')
  core : ∀ {m m' : Machine}, R m m' → ∀ {i i' : ScopeId}, P i i' →
    (i = m.interpreter.core ↔ i' = m'.interpreter.core)
  limit : ∀ {m m' : Machine}, R m m' → m'.interpreter.limit = m.interpreter.limit
  frames : ∀ {m m' : Machine}, R m m' → m'.interpreter.frames = m.interpreter.frames
  handlers : ∀ {m m' : Machine}, R m m' → ∀ event, List.Forall₂ (Value.Paired P)
    (Primitive.handlersOf m.interpreter event) (Primitive.handlersOf m'.interpreter event)
  hosts : ∀ {m m' : Machine}, R m m' → ∀ index : Nat,
    Option.Rel (HostOperation.Paired P K) m.world.hosts[index]? m'.world.hosts[index]?
  /-- the global scopes are paired, with each other only -/
  global : K.global → ∀ {m m' : Machine}, R m m' → P m.interpreter.global m'.interpreter.global ∧
    ∀ {i i' : ScopeId}, P i i' → (i = m.interpreter.global ↔ i' = m'.interpreter.global)
  builtins : K.core → ∀ {m m' : Machine}, R m m' → P m.interpreter.core m'.interpreter.core
  memory : K.memory → ∀ {m m' : Machine}, R m m' → List.Forall₂ (Value.Paired P) m.world.memory m'.world.memory
  deed : ∀ {m m' : Machine}, R m m' → ∀ {d d' : Deed}, d.Paired P d' → G d m → G' d' m' →
    EndsAlike (Deed.AnswersPaired P d d') (d.act m).1 (d'.act m').1 ∧ R (d.effect m) (d'.effect m')

section Matching

variable {α β γ δ : Type} {R : Machine → Machine → Prop} {G G' : Deed → Machine → Prop} {V : α → β → Prop}
  {W : γ → δ → Prop} {x : Course α} {x' : Course β}

theorem Correspondence.performAll (h : Correspondence P K R G G') {ds ds' : List Deed}
    (hds : List.Forall₂ (Deed.Paired P) ds ds') {m m' : Machine} (hm : R m m') (hG : Deed.Along G ds m)
    (hG' : Deed.Along G' ds' m') : R (performAll ds m) (performAll ds' m') := by
  induction hds generalizing m m' with
  | nil => exact hm
  | cons hd _ ih => exact ih (h.deed hm hd hG.1 hG'.1).2 hG.2 hG'.2

namespace Course

/-- from machines related by `R`, when both courses come to an end, they end alike and by the same deeds, up to the
pairing -/
structure Matches (P : Pairing) (R : Machine → Machine → Prop) (G G' : Deed → Machine → Prop) (V : α → β → Prop)
    (x : Course α) (x' : Course β) : Prop where
  alike : ∀ {m m' : Machine} {r : Except Diagnostic α} {r' : Except Diagnostic β} {ds ds' : List Deed}, R m m' →
    x m = some (r, ds) → x' m' = some (r', ds') → Deed.Along G ds m → Deed.Along G' ds' m' →
    EndsAlike V r r' ∧ List.Forall₂ (Deed.Paired P) ds ds'

namespace Matches

theorem pure {a : α} {b : β} (h : V a b) : Matches P R G G' V (Pure.pure a) (Pure.pure b) := by
  constructor
  rintro m m' r r' ds ds' - ⟨⟩ ⟨⟩ - -
  exact ⟨.ok h, .nil⟩

theorem fail (e : Diagnostic) : Matches P R G G' V (Course.fail e) (Course.fail e) := by
  constructor
  rintro m m' r r' ds ds' - ⟨⟩ ⟨⟩ - -
  exact ⟨.error e, .nil⟩

theorem failAt (pos : Pos) (fault : Fault) :
    Matches P R G G' V (Course.failAt pos fault) (Course.failAt pos fault) := fail _

theorem reads {f : Machine → Except Diagnostic α} {f' : Machine → Except Diagnostic β}
    (h : ∀ m m', R m m' → EndsAlike V (f m) (f' m')) : Matches P R G G' V (Course.reads f) (Course.reads f') := by
  constructor
  rintro m m' r r' ds ds' hm ⟨⟩ ⟨⟩ - -
  exact ⟨h m m' hm, .nil⟩

theorem asks {f : Machine → α} {f' : Machine → β} (h : ∀ m m', R m m' → V (f m) (f' m')) :
    Matches P R G G' V (Course.asks f) (Course.asks f') := by
  constructor
  rintro m m' r r' ds ds' hm ⟨⟩ ⟨⟩ - -
  exact ⟨.ok (h m m' hm), .nil⟩

theorem bind (hR : Correspondence P K R G G') {k : α → Course γ} {k' : β → Course δ} (hx : Matches P R G G' V x x')
    (hk : ∀ a b, V a b → Matches P R G G' W (k a) (k' b)) : Matches P R G G' W (x >>= k) (x' >>= k') := by
  constructor
  intro m m' r r' ds ds' hm hrun hrun' hG hG'
  rcases bind_eq_some hrun with ⟨e, he, rfl⟩ | ⟨a, ds₁, ds₂, hfirst, hnext, rfl⟩
  · rcases bind_eq_some hrun' with ⟨e', he', rfl⟩ | ⟨b, ds₁', ds₂', hfirst', -, rfl⟩
    · obtain ⟨⟨⟩, hds⟩ := hx.alike hm he he' hG hG'
      exact ⟨.error _, hds⟩
    · obtain ⟨⟨⟩, -⟩ := hx.alike hm he hfirst' hG (Deed.along_append.1 hG').1
  · rw [Deed.along_append] at hG
    rcases bind_eq_some hrun' with ⟨e', he', rfl⟩ | ⟨b, ds₁', ds₂', hfirst', hnext', rfl⟩
    · obtain ⟨⟨⟩, -⟩ := hx.alike hm hfirst he' hG.1 hG'
    · rw [Deed.along_append] at hG'
      obtain ⟨⟨hV⟩, hds⟩ := hx.alike hm hfirst hfirst' hG.1 hG'.1
      obtain ⟨hend, hds'⟩ := (hk a b hV).alike (hR.performAll hds hm hG.1 hG'.1) hnext hnext' hG.2 hG'.2
      exact ⟨hend, List.rel_append hds hds'⟩

theorem attempt (hx : Matches P R G G' V x x') :
    Matches P R G G' (EndsAlike V) (Course.attempt x) (Course.attempt x') := by
  constructor
  intro m m' r r' ds ds' hm hrun hrun' hG hG'
  obtain ⟨⟨s, ds⟩, hs, heq⟩ := Option.map_eq_some_iff.1 hrun
  obtain ⟨⟨s', ds'⟩, hs', heq'⟩ := Option.map_eq_some_iff.1 hrun'
  cases heq
  cases heq'
  obtain ⟨hend, hds⟩ := hx.alike hm hs hs' hG hG'
  exact ⟨.ok hend, hds⟩

theorem deed (hR : Correspondence P K R G G') {d d' : Deed} (hd : d.Paired P d') :
    Matches P R G G' (d.AnswersPaired P d') (Course.deed d) (Course.deed d') := by
  constructor
  rintro m m' r r' ds ds' hm ⟨⟩ ⟨⟩ hG hG'
  exact ⟨(hR.deed hm hd hG.1 hG'.1).1, .cons hd .nil⟩

theorem ite {p q : Prop} [Decidable p] [Decidable q] (hpq : p ↔ q) {y : Course α} {y' : Course β}
    (h : p → Matches P R G G' V x x') (h' : ¬p → Matches P R G G' V y y') :
    Matches P R G G' V (if p then x else y) (if q then x' else y') := by
  by_cases hp : p
  · rw [if_pos hp, if_pos (hpq.1 hp)]
    exact h hp
  · rw [if_neg hp, if_neg (mt hpq.2 hp)]
    exact h' hp

end Matches

end Course

end Matching

end Ouroboros
