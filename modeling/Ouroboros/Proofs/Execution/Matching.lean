/-
Tasks match.

On machines that correspond up to a pairing of scopes, tasks that agree up to the pairing end alike and by the same deeds
(`Eval.matches_runWithin`). The proof has one lemma for each kind of task, each put together from the rules for courses; the
tasks that a task is made of are taken to match, and the effort spent on them is what the induction is on.
-/
import Ouroboros.Proofs.Execution.Evaluation
import Ouroboros.Proofs.Execution.Pairing

namespace Ouroboros

variable {P : Pairing} {K : Common}

namespace Eval

open Course

variable {R : Machine → Machine → Prop} {G G' : Deed → Machine → Prop} {run : Task.Runner} {i i' : ScopeId}

/-! ## Copying -/

/-- a course that does nothing and does not fail -/
def Inert {α : Type} (x : Course α) : Prop := ∀ m r ds, x m = some (r, ds) → (∃ a, r = .ok a) ∧ ds = []

theorem Inert.pure {α : Type} (a : α) : Inert (Pure.pure a : Course α) := by
  rintro m r ds ⟨⟩
  exact ⟨⟨a, rfl⟩, rfl⟩

theorem Inert.bind {α β : Type} {x : Course α} {k : α → Course β} (hx : Inert x) (hk : ∀ a, Inert (k a)) :
    Inert (x >>= k) := by
  intro m r ds h
  rcases bind_eq_some h with ⟨e, he, -⟩ | ⟨a, ds₁, ds₂, hfirst, hnext, rfl⟩
  · obtain ⟨⟨a, ha⟩, -⟩ := hx _ _ _ he
    cases ha
  · obtain ⟨-, rfl⟩ := hx _ _ _ hfirst
    exact hk a _ _ _ hnext

theorem inert_copyTable (hrun : ∀ id c, Inert (run (.copy id c))) (target : ScopeId) (t : Table) (c : Snapshot.Copying) :
    Inert (Course.copyTable run target t c) := by
  induction t generalizing c with
  | nil => exact .pure c
  | cons b t ih =>
    obtain ⟨name, v⟩ := b
    cases v with
    | function f => exact (hrun f.scope c).bind fun r => ih _
    | unit | number | string | bool | builtin | range | unknown => exact ih _

theorem inert_copy (hrun : ∀ id c, Inert (run (.copy id c))) (id : ScopeId) (c : Snapshot.Copying) :
    Inert (Course.copy run id c) := by
  unfold Course.copy
  split
  · exact .pure _
  · split
    · exact .pure _
    · exact .pure _
    · rename_i scope _ _
      have haround : Inert (Course.copyAround run scope.parent c) := by
        cases scope.parent with
        | none => exact .pure _
        | some p => exact hrun p c
      exact haround.bind fun r => (inert_copyTable hrun _ _ _).bind fun _ => .pure _

theorem inert_runWithin_copy (n : Nat) (id : ScopeId) (c : Snapshot.Copying) : Inert (Task.runWithin n (.copy id c)) := by
  induction n generalizing id c with
  | zero => rintro m r ds ⟨⟩
  | succ n ih => exact inert_copy ih id c

/-- tasks that agree are carried out alike, and copying does nothing -/
structure RunsAlike (P : Pairing) (R : Machine → Machine → Prop) (G G' : Deed → Machine → Prop) (run : Task.Runner) :
    Prop where
  paired : ∀ {t t' : Task}, t.Paired P t' → Matches P R G G' (t.AnswersPaired P t') (run t) (run t')
  copy : ∀ (id : ScopeId) (c : Snapshot.Copying), Inert (run (.copy id c))

section Tasks

variable (hR : Correspondence P K R G G') (hrun : RunsAlike P R G G' run)

include hR hrun

theorem matches_owner (h : P i i') (name : Bytes) :
    Matches P R G G' (Option.Rel P) (Course.owner run i name) (Course.owner run i' name) := by
  constructor
  intro m m' r r' ds ds' hm hx hx' hG hG'
  rw [Course.owner, asks_bind, ownerIn] at hx hx'
  have hbound := hR.bound hm h name
  have hparent := hR.parent hm h
  generalize m.world.store.bound? i name = o at hbound hx
  generalize m'.world.store.bound? i' name = o' at hbound hx'
  generalize m.world.store.parent? i = p at hparent hx
  generalize m'.world.store.parent? i' = p' at hparent hx'
  cases hbound with
  | some => exact (Matches.pure (.some h)).alike hm hx hx' hG hG'
  | none =>
    cases hparent with
    | none => exact (Matches.pure .none).alike hm hx hx' hG hG'
    | some hp => exact (hrun.paired (.owner hp name)).alike hm hx hx' hG hG'

theorem matches_lookUp (h : P i i') (name : Bytes) :
    Matches P R G G' (Option.Rel (Value.Paired P)) (lookUp run i name) (lookUp run i' name) := by
  refine .bind hR (hrun.paired (.owner h name)) fun o o' ho => ?_
  cases ho with
  | none => exact .pure .none
  | some ho => exact .asks fun m m' hm => hR.bound hm ho name

omit hrun hR in
/-- operators do not take functions, and give none -/
theorem matches_binary (pos rightPos : Pos) (op : BinaryOp) {a a' b b' : Value} (ha : a.Paired P a')
    (hb : b.Paired P b') : Matches P R G G' (Value.Paired P) (reads fun m => (binary pos op rightPos a b m).1)
      (reads fun m => (binary pos op rightPos a' b' m).1) := by
  refine .reads fun m m' _ => ?_
  have hsame : (binary pos op rightPos a' b' m').1 = (binary pos op rightPos a b m).1 := by
    cases ha with
    | function => rw [binary_of_function (.inl rfl), binary_of_function (.inl rfl), hb.typeName]; rfl
    | plain ha =>
      cases hb with
      | function => rw [binary_of_function (.inr rfl), binary_of_function (.inr rfl)]; rfl
      | plain hb =>
        cases applied op a b with
        | value _ h | zero h | types h =>
          rw [h]
          rfl
  have hplain := (binary_inert pos rightPos op a b m).2
  rw [hsame]
  cases hend : (binary pos op rightPos a b m).1 with
  | error e => exact .error e
  | ok v => exact .ok (.plain (hplain v hend))

omit hrun hR in
theorem matches_range (pos : Pos) {a a' b b' : Value} (ha : a.Paired P a') (hb : b.Paired P b') :
    Matches P R G G' (Value.Paired P) (reads fun m => (range pos a b m).1) (reads fun m => (range pos a' b' m).1) := by
  refine .reads fun m m' _ => ?_
  have hsame : (range pos a' b' m').1 = (range pos a b m).1 := by
    cases ha with
    | function => cases hb <;> rfl
    | plain ha =>
      cases hb with
      | function => cases a <;> rfl
      | plain hb =>
        cases ranged a b with
        | range _ _ _ h | fault _ h =>
          rw [h]
          rfl
  have hplain := (range_inert pos a b m).2
  rw [hsame]
  cases hend : (range pos a b m).1 with
  | error e => exact .error e
  | ok v => exact .ok (.plain (hplain v hend))

omit hrun in
theorem matches_trace {function function' : Bytes} (h : function' = function) (stage : CallStage) :
    Matches P R G G' (fun _ _ => True) (Course.deed (.trace function stage) : Course Unit)
      (Course.deed (.trace function' stage) : Course Unit) := by
  subst h
  exact .deed hR (.trace _ stage)

theorem matches_expr (h : P i i') (e : Expr) :
    Matches P R G G' (Value.Paired P) (Course.expr run i e) (Course.expr run i' e) := by
  cases e with
  | number | string => exact .pure (.plain nofun)
  | ident pos name =>
    refine .bind hR (matches_lookUp hR hrun h name) fun o o' ho => ?_
    cases ho with
    | none => exact .failAt pos _
    | some hv => exact .pure hv
  | group pos inner | await pos inner => exact hrun.paired (.expr h inner)
  | binary pos op left right =>
    refine .bind hR (hrun.paired (.expr h left)) fun a a' ha => ?_
    exact .bind hR (hrun.paired (.expr h right)) fun b b' hb => matches_binary _ _ _ ha hb
  | range pos low high =>
    refine .bind hR (hrun.paired (.expr h low)) fun a a' ha => ?_
    exact .bind hR (hrun.paired (.expr h high)) fun b b' hb => matches_range _ ha hb
  | call pos callee args =>
    refine .bind hR (hrun.paired (.expr h callee)) fun f f' hf => ?_
    refine .bind hR (matches_trace hR (Value.Paired.callName hf) _) fun _ _ _ => ?_
    refine .bind hR (hrun.paired (.exprs h args)) fun vs vs' hvs => ?_
    exact .bind hR (matches_trace hR (Value.Paired.callName hf) _) fun _ _ _ => hrun.paired (.call hf hvs pos)

theorem matches_exprs (h : P i i') (es : List Expr) :
    Matches P R G G' (List.Forall₂ (Value.Paired P)) (Course.exprs run i es) (Course.exprs run i' es) := by
  cases es with
  | nil => exact .pure .nil
  | cons e rest =>
    refine .bind hR (hrun.paired (.expr h e)) fun v v' hv => ?_
    exact .bind hR (hrun.paired (.exprs h rest)) fun vs vs' hvs => .pure (.cons hv hvs)

theorem matches_assign (pos : Pos) (h : P i i') (name : Bytes) {v v' : Value} (hv : v.Paired P v') :
    Matches P R G G' (fun _ _ => True) (Course.assign run pos i name v) (Course.assign run pos i' name v') := by
  refine .bind hR (hrun.paired (.owner h name)) fun o o' ho => ?_
  cases ho with
  | none => exact .failAt pos _
  | some ho =>
    rename_i owner owner'
    have hcore : Matches P R G G' (fun core core' => owner = core ↔ owner' = core')
        (Course.asks fun m => m.interpreter.core) (Course.asks fun m => m.interpreter.core) :=
      .asks fun m m' hm => hR.core hm ho
    refine .bind hR hcore fun core core' hiff => ?_
    exact .ite hiff (fun _ => .failAt pos _) fun _ => Matches.deed hR (.set name ho hv)

omit hrun in
theorem matches_openScope (h : P i i') {bs bs' : List (Bytes × Value)} (hbs : BindingsPaired P bs bs') {γ δ : Type}
    {W : γ → δ → Prop} {k : ScopeId → Course γ} {k' : ScopeId → Course δ}
    (hk : ∀ j j', P j j' → Matches P R G G' W (k j) (k' j')) :
    Matches P R G G' W ((Course.deed (.openScope i bs) : Course ScopeId) >>= k)
      ((Course.deed (.openScope i' bs') : Course ScopeId) >>= k') :=
  .bind hR (Matches.deed hR (.openScope h hbs)) hk

theorem matches_block (h : P i i') (ss : List Stmt) :
    Matches P R G G' (Completion.Paired P) (Course.block run i ss) (Course.block run i' ss) := by
  refine matches_openScope hR h .nil fun j j' hj => ?_
  exact .bind hR (hrun.paired (.stmts hj ss .unit)) fun c c' hc => .pure (Completion.Paired.asBlock hc)

omit hrun in
theorem matches_declare (h : P i i') {d d' : Declaration} (hd : d.Paired P d') :
    Matches P R G G' (fun r r' => P r.1 r'.1 ∧ r.2.Paired P r'.2)
      (do let scope ← (Course.deed (.declare i d) : Course ScopeId); return (scope, Completion.normal .unit))
      (do let scope ← (Course.deed (.declare i' d') : Course ScopeId); return (scope, Completion.normal .unit)) :=
  .bind hR (Matches.deed hR (.declare h hd)) fun _ _ hj => .pure ⟨hj, .normal .unit⟩

theorem matches_stmt (h : P i i') (s : Stmt) :
    Matches P R G G' (fun r r' => P r.1 r'.1 ∧ r.2.Paired P r'.2) (Course.stmt run i s) (Course.stmt run i' s) := by
  cases s with
  | expr pos x => exact .bind hR (hrun.paired (.expr h x)) fun v v' hv => .pure ⟨h, .normal hv⟩
  | letDecl pos name type init =>
    refine .bind hR (hrun.paired (.expr h init)) fun v v' hv => ?_
    exact matches_declare hR h (.value name hv)
  | fnDecl pos sig bodyPos body => exact matches_declare hR h (.function sig body)
  | assign pos name value =>
    refine .bind hR (hrun.paired (.expr h value)) fun v v' hv => ?_
    exact .bind hR (matches_assign hR hrun pos h name hv) fun _ _ _ => .pure ⟨h, .normal .unit⟩
  | cond pos test thenPos thenBody otherwise =>
    refine .bind hR (hrun.paired (.expr h test)) fun v v' hv => ?_
    rw [Value.Paired.isTrue hv]
    refine .ite Iff.rfl (fun _ => ?_) fun _ => ?_
    · exact .bind hR (matches_block hR hrun h thenBody) fun c c' hc => .pure ⟨h, hc⟩
    · cases otherwise with
      | none => exact .pure ⟨h, .normal .unit⟩
      | some s => exact .bind hR (hrun.paired (.stmt h s)) fun r r' hr => .pure ⟨h, hr.2⟩
  | loop pos var bounds bodyPos body =>
    refine .bind hR (hrun.paired (.expr h bounds)) fun v v' hv => ?_
    cases hv with
    | function => exact .failAt _ _
    | plain =>
      cases v with
      | range low high =>
        exact .bind hR (hrun.paired (.rounds h var body low high)) fun c c' hc => .pure ⟨h, hc⟩
      | unit | number | string | bool | function | builtin | unknown => exact .failAt _ _
  | ret pos value =>
    have hframes : Matches P R G G' (fun frames frames' => frames' = frames) (Course.asks fun m => m.interpreter.frames)
        (Course.asks fun m => m.interpreter.frames) := .asks fun m m' hm => hR.frames hm
    refine .bind hR hframes fun frames frames' hsame => ?_
    refine .ite (by rw [hsame]) (fun _ => .failAt pos _) fun _ => ?_
    cases value with
    | none => exact .pure ⟨h, .returned .unit⟩
    | some x => exact .bind hR (hrun.paired (.expr h x)) fun v v' hv => .pure ⟨h, .returned hv⟩
  | block pos body => exact .bind hR (matches_block hR hrun h body) fun c c' hc => .pure ⟨h, hc⟩

theorem matches_stmts (h : P i i') (ss : List Stmt) {last last' : Value} (hlast : last.Paired P last') :
    Matches P R G G' (Completion.Paired P) (Course.stmts run i ss last) (Course.stmts run i' ss last') := by
  cases ss with
  | nil => exact .pure (.normal hlast)
  | cons s rest =>
    refine .bind hR (hrun.paired (.stmt h s)) fun r r' hr => ?_
    obtain ⟨j, c⟩ := r
    obtain ⟨j', c'⟩ := r'
    obtain ⟨hj, hc⟩ := hr
    cases hc with
    | normal hv => exact hrun.paired (.stmts hj rest hv)
    | returned hv => exact .pure (.returned hv)

theorem matches_rounds (h : P i i') (var : Bytes) (body : List Stmt) (next high : Int) :
    Matches P R G G' (Completion.Paired P) (Course.rounds run i var body next high)
      (Course.rounds run i' var body next high) := by
  refine .ite Iff.rfl (fun _ => ?_) fun _ => .pure (.normal .unit)
  refine matches_openScope hR h (.cons ⟨rfl, Value.Paired.number⟩ .nil) fun j j' hj => ?_
  refine .bind hR (hrun.paired (.stmts hj body .unit)) fun c c' hc => ?_
  cases hc with
  | normal => exact hrun.paired (.rounds h var body (next + 1) high)
  | returned hv => exact .pure (.returned hv)

/-! ## Calls -/

omit hrun hR in
/-- both calls are refused for the same fault, or both functions can be called -/
theorem calleeFor_paired {f f' : Value} {vs vs' : List Value} (hf : f.Paired P f')
    (hvs : List.Forall₂ (Value.Paired P) vs vs') :
    (∃ fault, calleeFor f vs = .error fault ∧ calleeFor f' vs' = .error fault) ∨
      ∃ callee callee', calleeFor f vs = .ok callee ∧ calleeFor f' vs' = .ok callee' ∧ callee.Paired P callee' := by
  have hadmitted : ∀ {callee callee' : Callee}, callee.Paired P callee' → Callee.of? f = some callee →
      Callee.of? f' = some callee' → (∃ fault, calleeFor f vs = .error fault ∧ calleeFor f' vs' = .error fault) ∨
      ∃ callee callee', calleeFor f vs = .ok callee ∧ calleeFor f' vs' = .ok callee' ∧ callee.Paired P callee' := by
    intro callee callee' hcallee hof hof'
    have harity : callee'.arity = callee.arity := by
      cases hcallee <;> rfl
    simp only [calleeFor, hof, hof', harity, hcallee.name, ← hvs.length_eq]
    cases callee.arity with
    | none => exact .inr ⟨callee, callee', rfl, rfl, hcallee⟩
    | some n =>
      by_cases hn : vs.length = n
      · exact .inr ⟨callee, callee', by simp [hn], by simp [hn], hcallee⟩
      · exact .inl ⟨.arity callee.name n vs.length, by simp [hn], by simp [hn]⟩
  cases hf with
  | function sig body h => exact hadmitted (.declared sig body h) rfl rfl
  | plain hp =>
    cases f with
    | function f => exact absurd rfl (hp f)
    | builtin b => exact hadmitted (.builtin b) rfl rfl
    | unit | number | string | bool | range | unknown => exact .inl ⟨_, rfl, rfl⟩

omit hrun in
theorem matches_settle {callee callee' : Callee} (hcallee : callee.Paired P callee') (pos : Pos)
    {r r' : Except Diagnostic Completion} (hr : EndsAlike (Completion.Paired P) r r') :
    Matches P R G G' (Value.Paired P) (Course.settle callee pos r) (Course.settle callee' pos r') := by
  have hleave : Matches P R G G' (fun _ _ => True) (Course.deed .leave : Course Unit) (Course.deed .leave : Course Unit) :=
    .deed hR .leave
  cases hr with
  | error d =>
    have hframes : Matches P R G G' (fun frames frames' => frames' = frames) (Course.asks fun m => m.interpreter.frames)
        (Course.asks fun m => m.interpreter.frames) := .asks fun m m' hm => hR.frames hm
    refine .bind hR hframes fun frames frames' hsame => ?_
    rw [hsame]
    exact .bind hR hleave fun _ _ _ => .fail _
  | ok hc =>
    have htrace := fun stage => matches_trace hR hcallee.name stage
    cases hc with
    | normal =>
      refine .bind hR hleave fun _ _ _ => .bind hR (htrace .normalEnd) fun _ _ _ => ?_
      exact .bind hR (htrace .completed) fun _ _ _ => .pure .unit
    | returned hv =>
      refine .bind hR hleave fun _ _ _ => .bind hR (htrace .returnSignal) fun _ _ _ => ?_
      exact .bind hR (htrace .completed) fun _ _ _ => .pure hv

theorem matches_call {f f' : Value} {vs vs' : List Value} (hf : f.Paired P f')
    (hvs : List.Forall₂ (Value.Paired P) vs vs') (pos : Pos) :
    Matches P R G G' (Value.Paired P) (Course.call run f vs pos) (Course.call run f' vs' pos) := by
  unfold Course.call
  rcases calleeFor_paired hf hvs with ⟨fault, h, h'⟩ | ⟨callee, callee', h, h', hcallee⟩
  · simp only [h, h']
    exact .failAt pos fault
  · simp only [h, h']
    have hroom : Matches P R G G' (fun j j' => j'.limit = j.limit ∧ j'.frames = j.frames)
        (Course.asks fun m => m.interpreter) (Course.asks fun m => m.interpreter) :=
      .asks fun m m' hm => ⟨hR.limit hm, hR.frames hm⟩
    refine .bind hR hroom fun j j' hj => ?_
    rw [hj.1, hj.2]
    refine .ite Iff.rfl (fun _ => .failAt pos _) fun _ => ?_
    have henter : Matches P R G G' (fun _ _ => True) (Course.deed (.enter ⟨callee.name, pos⟩) : Course Unit)
        (Course.deed (.enter ⟨callee'.name, pos⟩) : Course Unit) := by
      rw [hcallee.name]
      exact .deed hR (.enter _)
    refine .bind hR henter fun _ _ _ => .bind hR (matches_trace hR hcallee.name _) fun _ _ _ => ?_
    exact .bind hR (hrun.paired (.body hcallee hvs)).attempt fun r r' hr => matches_settle hR hcallee pos hr

/-! ## Builtins -/

/-- the copies for spawned work are all in the deed -/
theorem matches_copies (p : Primitive) {f f' : Closure} {vs vs' : List Value}
    (hvs : List.Forall₂ (Value.Paired P) vs vs') :
    Matches P R G G' (Value.Paired P)
      (do let c ← Course.asks copying
          let _ ← run (.copy f.scope c)
          (Course.deed (.builtin p vs) : Course Value))
      (do let c ← Course.asks copying
          let _ ← run (.copy f'.scope c)
          (Course.deed (.builtin p vs') : Course Value)) := by
  have hdeed : ∀ {f : Closure} {vs : List Value} {m : Machine} {r : Except Diagnostic Value} {ds : List Deed},
      (do let c ← Course.asks copying
          let _ ← run (.copy f.scope c)
          (Course.deed (.builtin p vs) : Course Value) : Course Value) m = some (r, ds) →
      (Course.deed (.builtin p vs) : Course Value) m = some (r, ds) := by
    intro f vs m r ds h
    rw [asks_bind] at h
    rcases bind_eq_some h with ⟨e, he, -⟩ | ⟨a, ds₁, ds₂, hcopy, hnext, rfl⟩
    · obtain ⟨⟨a, ha⟩, -⟩ := hrun.copy _ _ _ _ _ he
      cases ha
    · obtain ⟨-, rfl⟩ := hrun.copy _ _ _ _ _ hcopy
      exact hnext
  constructor
  intro m m' r r' ds ds' hm hx hx' hG hG'
  exact (Matches.deed hR (.builtin p hvs)).alike hm (hdeed hx) (hdeed hx') hG hG'

omit hrun hR in
/-- both builtins leave the same to tasks -/
theorem errand_paired (p : Primitive) {vs vs' : List Value} (hvs : List.Forall₂ (Value.Paired P) vs vs') :
    Option.Rel (Errand.Paired P) (Errand.of? p vs) (Errand.of? p vs') := by
  cases p with
  | setTimeout =>
    rcases hvs with _ | ⟨hf, _ | ⟨_, _ | ⟨_, _⟩⟩⟩
    · exact .none
    · exact .none
    · exact .some (.call hf)
    · exact .none
  | triggerEvent =>
    rcases hvs with _ | @⟨v, _, _, _, hv, hrest⟩
    · exact .none
    · cases hv with
      | function => cases hrest <;> exact .none
      | plain hv =>
        cases v with
        | string event =>
          cases hrest with
          | nil => exact .some (.handlers event)
          | cons => exact .none
        | unit | number | bool | function | builtin | range | unknown => cases hrest <;> exact .none
  | spawn =>
    rcases hvs with _ | @⟨v, _, _, _, hv, hrest⟩
    · exact .none
    · cases hv with
      | function =>
        cases hrest with
        | nil => exact .some (.copies _ _)
        | cons => exact .none
      | plain hv =>
        cases v with
        | function f => exact absurd rfl (hv f)
        | unit | number | string | bool | builtin | range | unknown => cases hrest <;> exact .none
  | _ => exact .none

theorem matches_primitive (p : Primitive) {vs vs' : List Value} (hvs : List.Forall₂ (Value.Paired P) vs vs') :
    Matches P R G G' (Value.Paired P) (Course.primitive run p vs) (Course.primitive run p vs') := by
  have hdeed : Matches P R G G' (Value.Paired P) (Course.deed (.builtin p vs) : Course Value)
      (Course.deed (.builtin p vs') : Course Value) := .deed hR (.builtin p hvs)
  have herrand := errand_paired p hvs
  unfold Course.primitive
  generalize Errand.of? p vs = o at herrand ⊢
  generalize Errand.of? p vs' = o' at herrand ⊢
  cases herrand with
  | none => exact hdeed
  | some hkind =>
    cases hkind with
    | call hf => exact .bind hR hdeed fun _ _ _ => hrun.paired (.call hf .nil .unknown)
    | handlers event =>
      have hhandlers : Matches P R G G' (List.Forall₂ (Value.Paired P))
          (Course.asks fun m => Primitive.handlersOf m.interpreter event)
          (Course.asks fun m => Primitive.handlersOf m.interpreter event) := .asks fun m m' hm => hR.handlers hm event
      refine .bind hR hhandlers fun hs hs' hhs => .bind hR hdeed fun v v' hv => ?_
      exact .bind hR (hrun.paired (.handlers hhs)) fun _ _ _ => .pure hv
    | copies f f' => exact matches_copies hR hrun p hvs

/-! ## Operations of a host -/

/-- a global scope that is paired stays paired when a program has ended in another one -/
theorem matches_exec (hglobal : K.global) (p : Program) {o o' : Option ScopeId} (ho : Option.Rel P o o') :
    Matches P R G G' (EndsAlike (Value.Paired P)) (Course.exec run p o) (Course.exec run p o') := by
  unfold Course.exec
  refine .ite Iff.rfl (fun _ => ?_) fun _ => .pure (.error _)
  have hfirst : Matches P R G G' P (Course.asks fun m => o.getD m.interpreter.global)
      (Course.asks fun m => o'.getD m.interpreter.global) := by
    refine .asks fun m m' hm => ?_
    cases ho with
    | none => exact (hR.global hglobal hm).1
    | some h => exact h
  refine .bind hR hfirst fun first first' hpaired => ?_
  refine .bind hR (hrun.paired (.program hpaired p.stmts .unit)) fun r r' hr => ?_
  obtain ⟨x, last⟩ := r
  obtain ⟨x', last'⟩ := r'
  obtain ⟨hx, hlast⟩ := hr
  have hwhere : Matches P R G G' (fun g g' => first = g ↔ first' = g') (Course.asks fun m => m.interpreter.global)
      (Course.asks fun m => m.interpreter.global) := .asks fun m m' hm => (hR.global hglobal hm).2 hpaired
  have hout : EndsAlike (Value.Paired P) (outcome x) (outcome x') := by
    cases hx with
    | ok h => exact .ok h
    | error d => exact .error [d]
  refine .bind hR hwhere fun g g' hg => .ite hg (fun _ => ?_) fun _ => .pure hout
  exact .bind hR (Matches.deed hR (.moveGlobal hlast)) fun _ _ _ => .pure hout

theorem matches_execSource (hglobal : K.global) (name source : Bytes) :
    Matches P R G G' (EndsAlike (Value.Paired P)) (Course.execSource run name source)
      (Course.execSource run name source) :=
  .bind hR (Matches.deed hR (.note _)) fun _ _ _ => matches_exec hR hrun hglobal _ .none

omit hrun in
theorem matches_bindHere (h : P i i') (name : Bytes) {v v' : Value} (hv : v.Paired P v') :
    Matches P R G G' (fun _ _ => True) (bindHere i name v) (bindHere i' name v') := by
  have hbound : Matches P R G G' (fun b b' => b.isSome = true ↔ b'.isSome = true)
      (Course.asks fun m => m.world.store.bound? i name) (Course.asks fun m => m.world.store.bound? i' name) := by
    refine .asks fun m m' hm => ?_
    have hrel := hR.bound hm h name
    generalize m.world.store.bound? i name = b, m'.world.store.bound? i' name = b' at hrel
    cases hrel with
    | none => exact Iff.rfl
    | some => simp
  refine .bind hR hbound fun b b' hb => .ite hb (fun _ => Matches.deed hR (.set name h hv)) fun _ => ?_
  exact .bind hR (Matches.deed hR (.declare h (.value name hv))) fun _ _ _ => .pure trivial

theorem matches_setVisible (h : P i i') (name : Bytes) {v v' : Value} (hv : v.Paired P v') :
    Matches P R G G' (fun b b' => b' = b) (Course.setVisible run i name v)
      (Course.setVisible run i' name v') := by
  refine .bind hR (hrun.paired (.owner h name)) fun o o' ho => ?_
  cases ho with
  | none => exact .pure rfl
  | some ho => exact .bind hR (Matches.deed hR (.set name ho hv)) fun _ _ _ => .pure rfl

theorem matches_answer {r r' : HostRequest} (hr : r.Paired P K r') :
    Matches P R G G' (r.AnswersPaired P r') (Course.answer run r) (Course.answer run r') := by
  cases hr with
  | call hf hvs => exact (hrun.paired (.call hf hvs .unknown)).attempt
  | exec p h hglobal => exact matches_exec hR hrun hglobal p h
  | execSource name source hglobal => exact matches_execSource hR hrun hglobal name source
  | register name arity index hcore =>
    refine .bind hR (V := P) (.asks fun m m' hm => hR.builtins hcore hm) fun core core' hpaired => ?_
    exact matches_bindHere hR hpaired name (.plain nofun)
  | define name h hv => exact matches_bindHere hR h name hv
  | set name h hv => exact matches_setVisible hR hrun h name hv
  | lookUp name h => exact matches_lookUp hR hrun h name
  | core hcore => exact .asks fun m m' hm => hR.builtins hcore hm
  | global hglobal => exact .asks fun m m' hm => (hR.global hglobal hm).1
  | newScope h => exact .deed hR (.openScope h .nil)
  | kept hmemory => exact .asks fun m m' hm => hR.memory hmemory hm
  | remember hvs hmemory => exact .deed hR (.remember hvs)

/-- the induction follows the questions, which agree as long as the answers do -/
theorem matches_host {action action' : HostAction} (h : action.Paired P K action') :
    Matches P R G G' (Value.Paired P) (Course.host run action) (Course.host run action') := by
  induction h with
  | answer hv => exact .pure hv
  | fail d => exact .fail d
  | ask hr _ ih => exact .bind hR (matches_answer hR hrun hr) fun a a' ha => ih a a' ha

theorem matches_builtin (b : Builtin) {vs vs' : List Value} (hvs : List.Forall₂ (Value.Paired P) vs vs') :
    Matches P R G G' (Value.Paired P) (Course.builtin run b vs) (Course.builtin run b vs') := by
  unfold Course.builtin
  cases b.routine with
  | primitive p => exact matches_primitive hR hrun p hvs
  | host index =>
    refine .bind hR (.asks fun m m' hm => hR.hosts hm index) fun o o' ho => ?_
    cases ho with
    | none => exact .pure .unit
    | some hoperation => exact matches_host hR hrun (hoperation vs vs' hvs)

omit hrun hR in
theorem bindings_paired (params : List Param) {vs vs' : List Value} (hvs : List.Forall₂ (Value.Paired P) vs vs') :
    BindingsPaired P ((params.map Param.name).zip vs) ((params.map Param.name).zip vs') := by
  induction hvs generalizing params with
  | nil => simp
  | cons hv _ ih =>
    cases params with
    | nil => simp
    | cons p params => exact .cons ⟨rfl, hv⟩ (ih params)

theorem matches_body {callee callee' : Callee} (hcallee : callee.Paired P callee') {vs vs' : List Value}
    (hvs : List.Forall₂ (Value.Paired P) vs vs') :
    Matches P R G G' (Completion.Paired P) (Course.body run vs callee) (Course.body run vs' callee') := by
  cases hcallee with
  | builtin b => exact .bind hR (matches_builtin hR hrun b hvs) fun v v' hv => .pure (.returned hv)
  | declared sig body h =>
    exact matches_openScope hR h (bindings_paired sig.params hvs) fun j j' hj => hrun.paired (.stmts hj body .unit)

theorem matches_handlers {hs hs' : List Value} (h : List.Forall₂ (Value.Paired P) hs hs') :
    Matches P R G G' (fun _ _ => True) (Course.handlers run hs) (Course.handlers run hs') := by
  cases h with
  | nil => exact .pure trivial
  | cons hf hrest =>
    exact .bind hR (hrun.paired (.call hf .nil .unknown)) fun _ _ _ => hrun.paired (.handlers hrest)

theorem matches_program (h : P i i') (ss : List Stmt) {last last' : Value} (hlast : last.Paired P last') :
    Matches P R G G' (fun r r' => EndsAlike (Value.Paired P) r.1 r'.1 ∧ P r.2 r'.2) (Course.program run i ss last)
      (Course.program run i' ss last') := by
  cases ss with
  | nil => exact .pure ⟨.ok hlast, h⟩
  | cons s rest =>
    refine .bind hR (hrun.paired (.stmt h s)).attempt fun r r' hr => ?_
    cases hr with
    | error d => exact .pure ⟨.error d, h⟩
    | @ok r r' hr =>
      obtain ⟨j, c⟩ := r
      obtain ⟨j', c'⟩ := r'
      obtain ⟨hj, hc⟩ := hr
      cases hc with
      | normal hv => exact hrun.paired (.program hj rest hv)
      | returned hv => exact .pure ⟨.ok hv, hj⟩

/-- one more level of tasks, one case for each task -/
theorem matches_expand {t t' : Task} (h : t.Paired P t') :
    Matches P R G G' (t.AnswersPaired P t') (t.expand run) (t'.expand run) := by
  cases h with
  | owner h name => exact matches_owner hR hrun h name
  | expr h e => exact matches_expr hR hrun h e
  | exprs h es => exact matches_exprs hR hrun h es
  | stmt h s => exact matches_stmt hR hrun h s
  | stmts h ss hv => exact matches_stmts hR hrun h ss hv
  | rounds h var body next high => exact matches_rounds hR hrun h var body next high
  | call hf hvs pos => exact matches_call hR hrun hf hvs pos
  | body hc hvs => exact matches_body hR hrun hc hvs
  | handlers h => exact matches_handlers hR hrun h
  | program h ss hv => exact matches_program hR hrun h ss hv

end Tasks

/-- **Evaluation treats scopes alike.** The induction is on the effort; each level of tasks is made of tasks that agree. -/
theorem matches_runWithin (hR : Correspondence P K R G G') (n : Nat) : RunsAlike P R G G' (Task.runWithin n) := by
  induction n with
  | zero =>
    refine ⟨fun _ => ⟨?_⟩, inert_runWithin_copy 0⟩
    rintro m m' r r' ds ds' - ⟨⟩
  | succ n ih => exact ⟨matches_expand hR ih, inert_runWithin_copy (n + 1)⟩

end Eval

/-! ## Operations on a machine -/

namespace Operation

/-- the same operation, but for the scopes -/
inductive Paired (P : Pairing) : Operation → Operation → Prop where
  | exec (p : Program) {scope scope' : Option ScopeId} (h : Option.Rel P scope scope') :
    Paired P (.exec p scope) (.exec p scope')
  | execSource (name source : Bytes) : Paired P (.execSource name source) (.execSource name source)
  | call {f f' : Value} {vs vs' : List Value} (hf : f.Paired P f') (hvs : List.Forall₂ (Value.Paired P) vs vs') :
    Paired P (.call f vs) (.call f' vs')

/-- operations on machines with paired global scopes -/
theorem matches_runWithin {P : Pairing} {K : Common} {R : Machine → Machine → Prop} {G G' : Deed → Machine → Prop}
    (hR : Correspondence P K R G G') (hglobal : K.global) (n : Nat) {op op' : Operation} (hop : op.Paired P op') :
    Course.Matches P R G G' (EndsAlike (Value.Paired P)) (op.runWithin n) (op'.runWithin n) := by
  have htasks := Eval.matches_runWithin hR n
  cases hop with
  | exec p hscope => exact Eval.matches_exec hR htasks hglobal p hscope
  | execSource name source => exact Eval.matches_execSource hR htasks hglobal name source
  | call hf hvs =>
    refine .bind hR (htasks.paired (.call hf hvs .unknown)).attempt fun x x' hx => .pure ?_
    cases hx with
    | ok h => exact .ok h
    | error d => exact .error [d]

end Operation

end Ouroboros
