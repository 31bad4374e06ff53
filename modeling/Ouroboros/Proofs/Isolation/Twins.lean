/-
Runs on renamed scopes.

Two machines are twins under a one-to-one pairing of scopes (`Machine.Twin`) when they agree, up to the pairing, in all that
a run can see: the scopes that are paired, the interpreter, the outside. The pairing says beforehand which scopes that are
not there yet will stand for which: the next of the one machine for the next of the other, and so on, for twins open
scopes in step. What else is in the two stores is left open.

Twins stay twins, deed by deed (`Machine.correspondence_twin`). So an operation does the same on both, up to the pairing: it
ends alike, does the same to the outside, and leaves the same work waiting (`Operation.perform_twin`). Copying for spawned
work is done in step as well, since the depth that bounds it does not matter (`Snapshot.scopeWithin_eq`).
-/
import Ouroboros.Proofs.Isolation.Spawning

namespace Ouroboros

/-- no scope is paired with two others -/
def Pairing.OneToOne (P : Pairing) : Prop := ∀ {i i' j j' : ScopeId}, P i i' → P j j' → (i = j ↔ i' = j')

variable {P : Pairing}

/-! ## Portable hosts -/

/-- a host that keeps nothing has only the scopes in common with the machine -/
def Common.unkept : Common := ⟨True, True, False⟩

/-- the host's operation keeps nothing, and does the same, but for the scopes, however scopes are renamed -/
def HostOperation.Portable (operation : HostOperation) : Prop :=
  ∀ P : Pairing, P.OneToOne → operation.Paired P .unkept operation

/-- a host that keeps nothing and does not look at the numbers of scopes -/
structure World.Portable (w : World) : Prop where
  hosts : ∀ operation ∈ w.hosts, operation.Portable
  memory : w.memory = []

theorem World.Portable.of_empty {w : World} (hhosts : w.hosts = #[]) (hmemory : w.memory = []) : w.Portable := by
  refine ⟨?_, hmemory⟩
  rw [hhosts]
  exact fun operation h => absurd h (Array.not_mem_empty operation)

section Self

variable {A : Region} {K : Common}

theorem Region.oneToOne_self (A : Region) : A.self.OneToOne := by
  rintro i _ j _ ⟨rfl, -⟩ ⟨rfl, -⟩
  exact Iff.rfl

theorem HostRequest.Paired.meets {r r' : HostRequest} (h : r.Paired A.self K r') : r.Meets (.inside A) () := by
  cases h with
  | call hf hvs => exact ⟨hf.self.2, (paired_self hvs).2⟩
  | exec p h =>
    rintro s rfl
    cases h with
    | some h => exact h.2
  | define name h hv | set name h hv => exact ⟨h.2, hv.self.2⟩
  | lookUp name h | newScope h => exact h.2
  | remember hvs => exact (paired_self hvs).2
  | execSource | register | core | global | kept => trivial

theorem HostRequest.AnswerMeets.paired {r : HostRequest} {a : r.Answer} (h : r.AnswerMeets (.inside A) () a) :
    r.AnswersPaired A.self r a a := by
  have hends : ∀ {ε : Type} (x : Except ε Value), (∀ v, x = .ok v → v.In A) → EndsAlike (Value.Paired A.self) x x := by
    intro ε x hx
    cases x with
    | error e => exact .error e
    | ok v => exact .ok (hx v rfl).paired
  cases r with
  | call f args => exact hends (ε := Diagnostic) a h
  | exec | execSource => exact hends (ε := List Diagnostic) a h
  | lookUp scope name =>
    change Option.Rel (Value.Paired A.self) a a
    cases ha : (a : Option Value) with
    | none => exact .none
    | some v => exact .some (Value.In.paired (h v ha))
  | core | global | newScope => exact ⟨rfl, h⟩
  | kept => exact List.forall₂_same.2 fun v hv => Value.In.paired (h v hv)
  | set => exact rfl
  | register | define | remember => trivial

theorem HostAction.Paired.meets {action : HostAction} (h : action.Paired A.self K action) :
    action.Meets (.inside A) () := by
  induction action with
  | answer v =>
    cases h with
    | answer hv => exact hv.self.2
  | fail d => trivial
  | ask r next ih =>
    cases h with
    | ask hr hnext => exact ⟨hr.meets, fun _ _ a ha => ih a (hnext a a ha.paired)⟩

/-- what keeps nothing keeps no functions -/
theorem HostAction.Paired.keepsPlain {action : HostAction} (h : action.Paired (Region.self fun _ => True) .unkept action) :
    action.AsksOnly HostRequest.KeepsPlain := by
  induction action with
  | answer v | fail d => trivial
  | ask r next ih =>
    cases h with
    | ask hr hnext =>
      refine ⟨?_, fun a => ih a (hnext a a (HostRequest.AnswerMeets.paired ?_))⟩
      · rintro vs rfl
        cases hr with
        | remember _ hmemory => exact hmemory.elim
      · cases r with
        | call | exec | execSource | lookUp => exact fun _ _ _ _ => trivial
        | kept => exact fun _ _ _ _ => trivial
        | core | global | newScope | set | register | define | remember => trivial

/-- a portable host hands out no functions and scopes of its own -/
theorem World.Portable.confined {w : World} (h : w.Portable) : w.Confined := by
  refine ⟨fun operation ho A => ?_, fun operation ho args => ?_, ?_⟩
  · intro _ _ args hargs
    have hvalues : List.Forall₂ (Value.Paired A.self) args args :=
      List.forall₂_same.2 fun v hv => Value.In.paired (hargs v hv)
    exact (h.hosts operation ho A.self A.oneToOne_self args args hvalues).meets
  · have hvalues : List.Forall₂ (Value.Paired (Region.self fun _ => True)) args args :=
      List.forall₂_same.2 fun v _ => Value.In.paired fun _ _ => trivial
    exact (h.hosts operation ho _ (Region.oneToOne_self _) args args hvalues).keepsPlain
  · rw [h.memory]
    exact List.forall_mem_nil _

end Self

/-! ## Stores -/

/-- scopes that agree up to the pairing -/
structure Scope.Paired (P : Pairing) (scope scope' : Scope) : Prop where
  parent : Option.Rel P scope.parent scope'.parent
  table : BindingsPaired P scope.table scope'.table

/-- paired scopes agree; those to come are paired in step -/
structure Store.Twin (P : Pairing) (s s' : Store) : Prop where
  scope : ∀ {i i' : ScopeId}, P i i' → Option.Rel (Scope.Paired P) s.scopes[i]? s'.scopes[i']?
  next : ∀ k, P (s.scopes.size + k) (s'.scopes.size + k)

theorem rel_cases {α β : Type} {r : α → β → Prop} {o : Option α} {o' : Option β} (h : Option.Rel r o o') :
    (o = none ∧ o' = none) ∨ ∃ a b, o = some a ∧ o' = some b ∧ r a b := by
  cases h with
  | none => exact .inl ⟨rfl, rfl⟩
  | @some a b h => exact .inr ⟨a, b, rfl, rfl, h⟩

/-- what is found under keys that stand for each other -/
theorem lookup_rel {κ α β : Type} [BEq κ] {q : κ → κ → Prop} {r : α → β → Prop} {t : List (κ × α)} {t' : List (κ × β)}
    (h : List.Forall₂ (fun b b' => q b.1 b'.1 ∧ r b.2 b'.2) t t') {k k' : κ}
    (hk : ∀ a a', q a a' → (k' == a') = (k == a)) : Option.Rel r (t.lookup k) (t'.lookup k') := by
  induction h with
  | nil => exact .none
  | @cons b b' t t' hb _ ih =>
    obtain ⟨a, x⟩ := b
    obtain ⟨a', x'⟩ := b'
    rw [List.lookup_cons, List.lookup_cons, hk a a' hb.1]
    cases k == a with
    | true => exact .some hb.2
    | false => exact ih

theorem lookup_paired {t t' : Table} (h : BindingsPaired P t t') (name : Bytes) :
    Option.Rel (Value.Paired P) (t.lookup name) (t'.lookup name) := by
  refine lookup_rel (q := fun a a' => a' = a) h ?_
  rintro a _ rfl
  rfl

theorem insert_paired {t t' : Table} (h : BindingsPaired P t t') (name : Bytes) {v v' : Value} (hv : v.Paired P v') :
    BindingsPaired P (t.insert name v) (t'.insert name v') := by
  induction h with
  | nil => exact .cons ⟨rfl, hv⟩ .nil
  | @cons b b' t t' hb ht ih =>
    obtain ⟨other, w⟩ := b
    obtain ⟨other', w'⟩ := b'
    obtain ⟨rfl, hw⟩ := hb
    rw [Table.insert, Table.insert]
    by_cases hname : other' = name
    · rw [if_pos hname, if_pos hname]
      exact .cons ⟨rfl, hv⟩ ht
    · rw [if_neg hname, if_neg hname]
      exact .cons ⟨rfl, hw⟩ ih

namespace Store.Twin

variable {s s' : Store}

theorem bound? (h : s.Twin P s') {i i' : ScopeId} (hi : P i i') (name : Bytes) :
    Option.Rel (Value.Paired P) (s.bound? i name) (s'.bound? i' name) := by
  rcases rel_cases (h.scope hi) with ⟨hold, hold'⟩ | ⟨scope, scope', hold, hold', hscope⟩
  · simp only [Store.bound?, hold, hold']
    exact .none
  · simp only [Store.bound?, hold, hold']
    exact lookup_paired hscope.table name

theorem parent? (h : s.Twin P s') {i i' : ScopeId} (hi : P i i') : Option.Rel P (s.parent? i) (s'.parent? i') := by
  rcases rel_cases (h.scope hi) with ⟨hold, hold'⟩ | ⟨scope, scope', hold, hold', hscope⟩
  · simp only [Store.parent?, hold, hold']
    exact .none
  · simp only [Store.parent?, hold, hold']
    exact hscope.parent

theorem isSome_bound? (h : s.Twin P s') {i i' : ScopeId} (hi : P i i') (name : Bytes) :
    (s'.bound? i' name).isSome = (s.bound? i name).isSome := by
  rcases rel_cases (h.bound? hi name) with ⟨hold, hold'⟩ | ⟨v, v', hold, hold', -⟩
  · rw [hold, hold']
  · rw [hold, hold']
    rfl

/-- a name is found in paired scopes from paired scopes -/
theorem owner? (h : s.Twin P s') (hs : s.WellFormed) (hs' : s'.WellFormed) {i i' : ScopeId} (hi : P i i')
    (name : Bytes) : Option.Rel P (s.owner? i name) (s'.owner? i' name) := by
  induction i using Nat.strong_induction_on generalizing i' with
  | h i ih =>
    rw [Store.owner?_eq hs.ordered, Store.owner?_eq hs'.ordered, h.isSome_bound? hi name]
    by_cases hbound : (s.bound? i name).isSome = true
    · rw [if_pos hbound, if_pos hbound]
      exact .some hi
    · rw [if_neg hbound, if_neg hbound]
      rcases rel_cases (h.parent? hi) with ⟨hnone, hnone'⟩ | ⟨p, p', hp, hp', hpaired⟩
      · rw [hnone, hnone']
        exact .none
      · rw [hp, hp']
        exact ih p (hs.parent? hp) hpaired

theorem lookup? (h : s.Twin P s') (hs : s.WellFormed) (hs' : s'.WellFormed) {i i' : ScopeId} (hi : P i i')
    (name : Bytes) : Option.Rel (Value.Paired P) (s.lookup? i name) (s'.lookup? i' name) := by
  unfold Store.lookup?
  rcases rel_cases (h.owner? hs hs' hi name) with ⟨hnone, hnone'⟩ | ⟨e, e', he, he', hpaired⟩
  · rw [hnone, hnone']
    exact .none
  · rw [he, he']
    exact h.bound? hpaired name

/-- one more scope on both sides -/
theorem add (h : s.Twin P s') (hP : P.OneToOne) {scope scope' : Scope} (hscope : scope.Paired P scope') :
    Store.Twin P ⟨s.scopes.push scope⟩ ⟨s'.scopes.push scope'⟩ := by
  constructor
  · intro i i' hi
    have hnext := hP hi (h.next 0)
    simp only [Nat.add_zero] at hnext
    rw [Array.getElem?_push, Array.getElem?_push]
    by_cases hsize : i = s.scopes.size
    · rw [if_pos hsize, if_pos (hnext.1 hsize)]
      exact .some hscope
    · rw [if_neg hsize, if_neg (mt hnext.2 hsize)]
      exact h.scope hi
  · intro k
    have hnext := h.next (1 + k)
    simpa only [Array.size_push, Nat.add_assoc] using hnext

theorem push (h : s.Twin P s') (hP : P.OneToOne) {i i' : ScopeId} (hi : P i i') :
    (s.push (some i)).2.Twin P (s'.push (some i')).2 := h.add hP ⟨.some hi, .nil⟩

theorem define (h : s.Twin P s') (hP : P.OneToOne) {id id' : ScopeId} (hid : P id id') (name : Bytes) {v v' : Value}
    (hv : v.Paired P v') : (s.define id name v).Twin P (s'.define id' name v') := by
  constructor
  · intro i i' hi
    rw [Snapshot.getElem?_define, Snapshot.getElem?_define]
    by_cases hsame : id = i
    · rw [if_pos hsame, if_pos ((hP hid hi).1 hsame)]
      rcases rel_cases (h.scope hi) with ⟨hold, hold'⟩ | ⟨scope, scope', hold, hold', hscope⟩
      · rw [hold, hold']
        exact .none
      · rw [hold, hold']
        exact .some ⟨hscope.parent, insert_paired hscope.table name hv⟩
    · rw [if_neg hsame, if_neg (mt (hP hid hi).2 hsame)]
      exact h.scope hi
  · intro k
    rw [Snapshot.size_define, Snapshot.size_define]
    exact h.next k

theorem defineAll (h : s.Twin P s') (hP : P.OneToOne) {id id' : ScopeId} (hid : P id id')
    {bs bs' : List (Bytes × Value)} (hbs : BindingsPaired P bs bs') :
    (s.defineAll id bs).Twin P (s'.defineAll id' bs') := by
  induction hbs generalizing s s' with
  | nil => exact h
  | @cons b b' bs bs' hb _ ih =>
    obtain ⟨name, v⟩ := b
    obtain ⟨name', v'⟩ := b'
    obtain ⟨rfl, hv⟩ := hb
    exact ih (h.define hP hid _ hv)

end Store.Twin

/-! ## Copies -/

namespace Snapshot

/-- the depth does not matter as long as it suffices -/
theorem scopeWithin_eq {s : Store} (hs : s.WellFormed) {c : Copying} {id : ScopeId} (hc : Over s c)
    (hid : id < s.scopes.size) {n k : Nat} (hn : depthFor s c id ≤ n) (hk : depthFor s c id ≤ k) (m : Machine) :
    scopeWithin n id c = scopeWithin k id c := by
  obtain ⟨N, hN⟩ := Eval.ends_copy hs n c id hc hid hn
  obtain ⟨K, hK⟩ := Eval.ends_copy hs k c id hc hid hk
  have hsame := (hN (max N K) (Nat.le_max_left N K) m).symm.trans (hK (max N K) (Nat.le_max_right N K) m)
  exact Except.ok.inj (Prod.mk.inj (Option.some.inj hsame)).1

/-- copying on both sides, in step -/
structure Copying.Twin (P : Pairing) (c c' : Copying) : Prop where
  stop : P c.stop c'.stop
  base : P c.base c'.base
  order : c'.order = c.order
  store : c.store.Twin P c'.store
  copies : List.Forall₂ (fun x x' => P x.1 x'.1 ∧ P x.2 x'.2) c.copies c'.copies

/-- paired scopes are copied in step -/
def CopiesTwins (P : Pairing) (copy : Copy) : Prop := ∀ {id id' : ScopeId} {c c' : Copying}, P id id' → c.Twin P c' →
  P (copy id c).1 (copy id' c').1 ∧ (copy id c).2.Twin P (copy id' c').2

theorem lookup_copies (hP : P.OneToOne) {xs xs' : List (ScopeId × ScopeId)}
    (h : List.Forall₂ (fun x x' => P x.1 x'.1 ∧ P x.2 x'.2) xs xs') {id id' : ScopeId} (hid : P id id') :
    Option.Rel P (xs.lookup id) (xs'.lookup id') := by
  refine lookup_rel h fun a a' ha => ?_
  rw [Bool.eq_iff_iff, beq_iff_eq, beq_iff_eq]
  exact (hP hid ha).symm

theorem value_twin {copy : Copy} (hcopy : CopiesTwins P copy) {v v' : Value} (hv : v.Paired P v') {c c' : Copying}
    (h : c.Twin P c') : (value copy v c).1.Paired P (value copy v' c').1 ∧
      (value copy v c).2.Twin P (value copy v' c').2 := by
  cases hv with
  | function sig body hi =>
    obtain ⟨hscope, htwin⟩ := hcopy hi h
    exact ⟨.function sig body hscope, htwin⟩
  | plain hv =>
    cases v with
    | function f => exact absurd rfl (hv f)
    | unit | number | string | bool | builtin | range | unknown => exact ⟨.plain hv, h⟩

theorem table_twin (hP : P.OneToOne) {copy : Copy} (hcopy : CopiesTwins P copy) {target target' : ScopeId}
    (ht : P target target') {t t' : Table} (htable : BindingsPaired P t t') {c c' : Copying} (h : c.Twin P c') :
    (table copy target t c).Twin P (table copy target' t' c') := by
  induction htable generalizing c c' with
  | nil => exact h
  | @cons b b' t t' hb _ ih =>
    obtain ⟨name, v⟩ := b
    obtain ⟨name', v'⟩ := b'
    obtain ⟨rfl, hv⟩ := hb
    obtain ⟨hvalue, htwin⟩ := value_twin hcopy hv h
    apply ih
    exact ⟨htwin.stop, htwin.base, htwin.order, htwin.store.define hP ht _ hvalue, htwin.copies⟩

theorem insertIdx_rel {α β : Type} {r : α → β → Prop} {l : List α} {l' : List β} (h : List.Forall₂ r l l') {a : α} {b : β}
    (hab : r a b) (i : Nat) : List.Forall₂ r (l.insertIdx i a) (l'.insertIdx i b) := by
  induction h generalizing i with
  | nil =>
    cases i with
    | zero => exact .cons hab .nil
    | succ i => exact .nil
  | cons hfirst hrest ih =>
    cases i with
    | zero => exact .cons hab (.cons hfirst hrest)
    | succ i => exact .cons hfirst (ih i)

/-- lists that agree are put in the same order -/
theorem arranged_rel {α β : Type} {r : α → β → Prop} (place : Nat → Nat) {l : List α} {l' : List β}
    (h : List.Forall₂ r l l') : List.Forall₂ r (arranged place l) (arranged place l') := by
  induction h with
  | nil => exact .nil
  | cons hfirst hrest ih =>
    rw [arranged, arranged, hrest.length_eq]
    exact insertIdx_rel ih hfirst _

theorem arrange_paired {c c' : Copying} (h : c.Twin P c') {t t' : Table} (ht : BindingsPaired P t t') :
    BindingsPaired P (c.arrange t) (c'.arrange t') := by
  rw [Copying.arrange, Copying.arrange, h.order, h.copies.length_eq]
  exact arranged_rel _ ht

theorem around_twin {copy : Copy} (hcopy : CopiesTwins P copy) {p p' : Option ScopeId} (hp : Option.Rel P p p')
    {c c' : Copying} (h : c.Twin P c') :
    P (around copy p c).1 (around copy p' c').1 ∧ (around copy p c).2.Twin P (around copy p' c').2 := by
  cases hp with
  | none => exact ⟨h.base, h⟩
  | some hp => exact hcopy hp h

theorem opened_alike (hP : P.OneToOne) {id id' : ScopeId} (hid : P id id') {r r' : ScopeId × Copying}
    (hr : P r.1 r'.1) (h : r.2.Twin P r'.2) : (opened id r).Twin P (opened id' r') :=
  ⟨h.stop, h.base, h.order, h.store.push hP hr, .cons ⟨hid, h.store.next 0⟩ h.copies⟩

theorem scopeWith_twin (hP : P.OneToOne) {copy : Copy} (hcopy : CopiesTwins P copy) :
    CopiesTwins P (scopeWith copy) := by
  intro id id' c c' hid h
  have hstop := hP hid h.stop
  by_cases hid_stop : id = c.stop
  · rw [scopeWith, scopeWith, if_pos hid_stop, if_pos (hstop.1 hid_stop)]
    exact ⟨h.base, h⟩
  have hid_stop' : id' ≠ c'.stop := mt hstop.2 hid_stop
  rcases rel_cases (lookup_copies hP h.copies hid) with ⟨hdone, hdone'⟩ | ⟨t, t', hdone, hdone', ht⟩
  · rcases rel_cases (h.store.scope hid) with ⟨hold, hold'⟩ | ⟨scope, scope', hold, hold', hscope⟩
    · simp only [scopeWith, if_neg hid_stop, if_neg hid_stop', hdone, hdone', hold, hold']
      exact ⟨h.base, h⟩
    · rw [scopeWith_new hid_stop hdone hold, scopeWith_new hid_stop' hdone' hold']
      obtain ⟨hparent, haround⟩ := around_twin hcopy hscope.parent h
      refine ⟨haround.store.next 0, ?_⟩
      exact table_twin hP hcopy (haround.store.next 0) (arrange_paired haround hscope.table)
        (opened_alike hP hid hparent haround)
  · simp only [scopeWith, if_neg hid_stop, if_neg hid_stop', hdone, hdone']
    exact ⟨ht, h⟩

theorem scopeWithin_twin (hP : P.OneToOne) (n : Nat) : CopiesTwins P (scopeWithin n) := by
  induction n with
  | zero =>
    intro id id' c c' _ h
    exact ⟨h.base, h⟩
  | succ n ih => exact scopeWith_twin hP ih

end Snapshot

/-! ## Interpreters and work -/

/-- interpreters that agree up to the pairing -/
structure Interpreter.Paired (P : Pairing) (i i' : Interpreter) : Prop where
  core : P i.core i'.core
  global : P i.global i'.global
  limit : i'.limit = i.limit
  frames : i'.frames = i.frames
  handlers : List.Forall₂ (fun e e' => e'.1 = e.1 ∧ List.Forall₂ (Value.Paired P) e.2 e'.2) i.handlers i'.handlers
  path : i'.path = i.path

/-- pieces of work that agree up to the pairing -/
structure Job.Paired (P : Pairing) (job job' : Job) : Prop where
  interpreter : job.interpreter.Paired P job'.interpreter
  work : job.work.Paired P job'.work
  name : job'.name = job.name

namespace Primitive

theorem handlersOf_paired {i i' : Interpreter} (h : i.Paired P i') (event : Bytes) :
    List.Forall₂ (Value.Paired P) (handlersOf i event) (handlersOf i' event) := by
  have hfound : Option.Rel (List.Forall₂ (Value.Paired P)) (i.handlers.lookup event) (i'.handlers.lookup event) := by
    refine lookup_rel (q := fun a a' => a' = a) h.handlers ?_
    rintro a _ rfl
    rfl
  unfold handlersOf
  rcases rel_cases hfound with ⟨hnone, hnone'⟩ | ⟨hs, hs', hsome, hsome', hpaired⟩
  · rw [hnone, hnone']
    exact .nil
  · rw [hsome, hsome']
    exact hpaired

theorem addHandler_paired (event : Bytes) {v v' : Value} (hv : v.Paired P v') {hs hs' : List (Bytes × List Value)}
    (h : List.Forall₂ (fun e e' => e'.1 = e.1 ∧ List.Forall₂ (Value.Paired P) e.2 e'.2) hs hs') :
    List.Forall₂ (fun e e' => e'.1 = e.1 ∧ List.Forall₂ (Value.Paired P) e.2 e'.2) (addHandler event v hs)
      (addHandler event v' hs') := by
  induction h with
  | nil => exact .cons ⟨rfl, .cons hv .nil⟩ .nil
  | @cons e e' hs hs' he hrest ih =>
    obtain ⟨other, vs⟩ := e
    obtain ⟨other', vs'⟩ := e'
    obtain ⟨rfl, hvs⟩ := he
    rw [addHandler, addHandler]
    by_cases hother : other' = event
    · rw [if_pos hother, if_pos hother]
      exact .cons ⟨rfl, List.rel_append hvs (.cons hv .nil)⟩ hrest
    · rw [if_neg hother, if_neg hother]
      exact .cons ⟨rfl, hvs⟩ ih

end Primitive

/-! ## Machines -/

/-- worlds that agree, up to the pairing, in what a run can see; since `m₀` and `m₀'` the same was done to the outside and
the same work was left -/
structure Machine.Alike (P : Pairing) (m₀ m₀' m m' : Machine) : Prop where
  store : m.world.store.Twin P m'.world.store
  outside : m'.outside = m.outside
  hosts : m'.world.hosts = m.world.hosts
  portable : ∀ operation ∈ m.world.hosts, operation.Portable
  orders : m'.world.orders = m.world.orders
  record : ∃ es, m.world.record = m₀.world.record ++ es ∧ m'.world.record = m₀'.world.record ++ es
  jobs : ∃ js js', m.world.jobs = m₀.world.jobs ++ js ∧ m'.world.jobs = m₀'.world.jobs ++ js' ∧
    List.Forall₂ (Job.Paired P) js js'

/-- and the interpreters agree as well -/
structure Machine.Twin (P : Pairing) (m₀ m₀' m m' : Machine) : Prop extends Machine.Alike P m₀ m₀' m m' where
  interpreter : m.interpreter.Paired P m'.interpreter

namespace Machine

variable {m₀ m₀' m m' : Machine}

theorem Alike.proceed (h : Alike P m₀ m₀' m m') (o : World) (es : Array Effect) :
    Alike P m₀ m₀' (m.proceed o es) (m'.proceed o es) := by
  obtain ⟨before, hrecord, hrecord'⟩ := h.record
  refine ⟨h.store, m.outside_proceed m' o es, h.hosts, h.portable, h.orders, ⟨before ++ es, ?_, ?_⟩, h.jobs⟩
  · rw [record_proceed, hrecord, Array.append_assoc]
  · rw [record_proceed, hrecord', Array.append_assoc]

/-- only the worlds matter -/
theorem Alike.inside (h : Alike P m₀ m₀' m m') (i i' : Interpreter) : Alike P m₀ m₀' ⟨i, m.world⟩ ⟨i', m'.world⟩ :=
  ⟨h.store, h.outside, h.hosts, h.portable, h.orders, h.record, h.jobs⟩

namespace Twin

theorem proceed (h : Twin P m₀ m₀' m m') (o : World) (es : Array Effect) :
    Twin P m₀ m₀' (m.proceed o es) (m'.proceed o es) := ⟨h.toAlike.proceed o es, h.interpreter⟩

theorem withStore (h : Twin P m₀ m₀' m m') {s s' : Store} (hs : s.Twin P s') :
    Twin P m₀ m₀' (m.withStore s) (m'.withStore s') :=
  ⟨⟨hs, h.outside, h.hosts, h.portable, h.orders, h.record, h.jobs⟩, h.interpreter⟩

theorem withInterpreter (h : Twin P m₀ m₀' m m') {i i' : Interpreter} (hi : i.Paired P i') :
    Twin P m₀ m₀' { m with interpreter := i } { m' with interpreter := i' } :=
  ⟨⟨h.store, h.outside, h.hosts, h.portable, h.orders, h.record, h.jobs⟩, hi⟩

theorem advance (h : Twin P m₀ m₀' m m') : Twin P m₀ m₀' m.advance m'.advance := by
  have hi := h.interpreter
  exact h.withInterpreter ⟨hi.core, hi.global, hi.limit, hi.frames, hi.handlers, congrArg (true :: ·) hi.path⟩

theorem enqueue (h : Twin P m₀ m₀' m m') {job job' : Job} (hjob : job.Paired P job') :
    Twin P m₀ m₀' (m.enqueue job) (m'.enqueue job') := by
  obtain ⟨js, js', hjs, hjs', hpaired⟩ := h.jobs
  refine ⟨⟨h.store, h.outside, h.hosts, h.portable, h.orders, h.record, js ++ [job], js' ++ [job'], ?_, ?_, ?_⟩,
    h.interpreter⟩
  · simp only [Machine.enqueue, hjs, List.append_assoc]
  · simp only [Machine.enqueue, hjs', List.append_assoc]
  · exact List.rel_append hpaired (.cons hjob .nil)

end Twin

end Machine

/-! ## Steps -/

namespace Eval

variable {α β γ δ : Type} {m₀ m₀' m m' : Machine} {V : α → β → Prop} {W : γ → δ → Prop}

/-- both steps end alike and leave twins -/
def EndsTwin (P : Pairing) (m₀ m₀' : Machine) (V : α → β → Prop) (r : Except Diagnostic α × Machine)
    (r' : Except Diagnostic β × Machine) : Prop := EndsAlike V r.1 r'.1 ∧ Machine.Twin P m₀ m₀' r.2 r'.2

namespace EndsTwin

theorem bind {x : Eval α} {x' : Eval β} {k : α → Eval γ} {k' : β → Eval δ} (hx : EndsTwin P m₀ m₀' V (x m) (x' m'))
    (hk : ∀ a b n n', V a b → Machine.Twin P m₀ m₀' n n' → EndsTwin P m₀ m₀' W (k a n) (k' b n')) :
    EndsTwin P m₀ m₀' W ((x >>= k) m) ((x' >>= k') m') := by
  rw [Action.bind_apply, Action.bind_apply]
  generalize x m = r at hx
  generalize x' m' = r' at hx
  obtain ⟨r, n⟩ := r
  obtain ⟨r', n'⟩ := r'
  obtain ⟨hend, htwin⟩ := hx
  cases hend with
  | error e => exact ⟨.error e, htwin⟩
  | ok h => exact hk _ _ n n' h htwin

/-- steps that have to do with the outside only -/
theorem of_outward {x x' : Eval α} (hx : Outward x x') (h : Machine.Twin P m₀ m₀' m m') :
    EndsTwin P m₀ m₀' (fun a b => b = a) (x m) (x' m') := by
  obtain ⟨r, o, es, hrun, hrun', -⟩ := hx m m' h.outside
  rw [hrun, hrun']
  refine ⟨?_, h.proceed o es⟩
  cases r with
  | error e => exact .error e
  | ok a => exact .ok rfl

theorem log {entry entry' : Machine → LogEntry} (h : Machine.Twin P m₀ m₀' m m') (hentry : entry' m' = entry m) :
    EndsTwin P m₀ m₀' (fun _ _ => True) (Eval.log entry m) (Eval.log entry' m') := by
  obtain ⟨r, o, es, hrun, hrun', -⟩ := log_outward h.outside hentry
  rw [hrun, hrun']
  refine ⟨?_, h.proceed o es⟩
  cases r with
  | error e => exact .error e
  | ok a => exact .ok trivial

end EndsTwin

end Eval

/-! ## Spawning -/

theorem Store.Twin.pushCore {s s' : Store} (h : s.Twin P s') (hP : P.OneToOne) :
    s.pushCore.2.2.Twin P s'.pushCore.2.2 := by
  have htable : BindingsPaired P coreTable coreTable :=
    List.forall₂_same.2 fun b hb => ⟨rfl, .plain (coreTable_plain.2 b hb)⟩
  have hcore : Store.Twin P ⟨s.scopes.push ⟨none, coreTable⟩⟩ ⟨s'.scopes.push ⟨none, coreTable⟩⟩ :=
    h.add hP ⟨.none, htable⟩
  exact hcore.add hP ⟨.some (h.next 0), .nil⟩

namespace Eval

variable {m₀ m₀' m m' : Machine}

theorem copying_twin (hP : P.OneToOne) (h : Machine.Twin P m₀ m₀' m m') : (copying m).Twin P (copying m') := by
  have horder : m'.world.orders m'.interpreter.path = m.world.orders m.interpreter.path := by
    rw [h.orders, h.interpreter.path]
  exact ⟨h.interpreter.core, h.store.next 0, horder, h.store.pushCore hP, .nil⟩

/-- any greater depth is as good as the one that copying starts with -/
theorem copied_eq (hm : m.WellFormed) {f : Closure} (hf : f.scope < m.size) {n : Nat}
    (hn : Snapshot.depth (copying m).store ≤ n) : copied f m = Snapshot.scopeWithin n f.scope (copying m) := by
  have hsize : m.size ≤ (copying m).store.scopes.size := 
    (newInterpreter_kept m.world m.interpreter.limit (false :: m.interpreter.path)).size
  have hlt := Nat.lt_of_lt_of_le hf hsize
  have hdepth : Snapshot.depthFor (copying m).store (copying m) f.scope ≤ Snapshot.depth (copying m).store :=
    Snapshot.depthFor_le_depth hlt
  exact Snapshot.scopeWithin_eq hm.store.pushCore ⟨Nat.le_refl _, fun _ _ => rfl⟩ hlt hdepth (Nat.le_trans hdepth hn) m

theorem copied_twin (hP : P.OneToOne) (h : Machine.Twin P m₀ m₀' m m') (hm : m.WellFormed) (hm' : m'.WellFormed)
    (f f' : Closure) (hf : P f.scope f'.scope) (hscope : f.scope < m.size) (hscope' : f'.scope < m'.size) :
    P (copied f m).1 (copied f' m').1 ∧ (copied f m).2.Twin P (copied f' m').2 := by
  rw [copied_eq hm hscope (Nat.le_max_left _ (Snapshot.depth (copying m').store)),
    copied_eq hm' hscope' (Nat.le_max_right (Snapshot.depth (copying m).store) _)]
  exact Snapshot.scopeWithin_twin hP _ hf (copying_twin hP h)

/-- the builtins of the new interpreter -/
theorem copying_builtins (m : Machine) : (copying m).store.scopes[m.size]? = some ⟨none, coreTable⟩ := by
  simp only [copying, World.newInterpreter, Store.pushCore]
  rw [Array.getElem?_push_lt (by simp), Array.getElem_push_eq]

/-- a spawned builtin is looked for among the builtins at the start -/
theorem rebound_copying (b : Builtin) (m : Machine) :
    rebound m.size b (copying m).store = (coreTable.lookup b.name).getD (.builtin b) := by
  have hcore := copying_builtins m
  have hbound : (copying m).store.bound? m.size b.name = coreTable.lookup b.name := by
    rw [Store.bound?, hcore]
    rfl
  have hchain : (copying m).store.chain m.size = [m.size] := by
    rw [Store.chain, Store.chainWithin, Store.parent?, hcore]
    rfl
  rw [rebound, Store.lookup?, Store.owner?, hchain, List.find?_cons, hbound]
  cases hlookup : coreTable.lookup b.name with
  | none => rfl
  | some v =>
    change (((copying m).store.bound? m.size b.name).getD _) = _
    rw [hbound, hlookup]

theorem rebound_twin (b : Builtin) (m m' : Machine) :
    (rebound m.size b (copying m).store).Paired P (rebound m'.size b (copying m').store) := by
  rw [rebound_copying, rebound_copying]
  refine .plain ?_
  cases hlookup : coreTable.lookup b.name with
  | none => nofun
  | some v => exact plain_of_lookup hlookup

/-- **Spawning in step.** Functions that agree are spawned in step: the stores stay twins, and the work agrees. -/
theorem spawned_twin (hP : P.OneToOne) (h : Machine.Twin P m₀ m₀' m m') (hm : m.WellFormed) (hm' : m'.WellFormed)
    {v v' : Value} (hv : v.Paired P v') (hwithin : v.Within m.size) (hwithin' : v'.Within m'.size) :
    (spawned v m).Twin P (spawned v' m') ∧ (jobFor v m).Paired P (jobFor v' m') := by
  have hnext : P (m.size + 1) (m'.size + 1) := h.store.next 1
  have hchild : Interpreter.Paired P ⟨m.size, m.size + 1, m.interpreter.limit, [], [], false :: m.interpreter.path⟩
      ⟨m'.size, m'.size + 1, m'.interpreter.limit, [], [], false :: m'.interpreter.path⟩ :=
    ⟨h.store.next 0, hnext, h.interpreter.limit, rfl, .nil, congrArg (false :: ·) h.interpreter.path⟩
  cases hv with
  | function sig body hi =>
    obtain ⟨hscope, hcopying⟩ := copied_twin hP h hm hm' ⟨sig, body, _⟩ ⟨sig, body, _⟩ hi (hwithin _ rfl) (hwithin' _ rfl)
    exact ⟨hcopying.store, hchild, .function sig body hscope, rfl⟩
  | plain hplain =>
    cases v with
    | function f => exact absurd rfl (hplain f)
    | builtin b => exact ⟨h.store.pushCore hP, hchild, rebound_twin b m m', rfl⟩
    | unit | number | string | bool | range | unknown => exact ⟨h.store.pushCore hP, hchild, .plain hplain, rfl⟩

theorem spawn_twin (hP : P.OneToOne) (h : Machine.Twin P m₀ m₀' m m') (hm : m.WellFormed) (hm' : m'.WellFormed)
    {v v' : Value} (hv : v.Paired P v') (hwithin : v.Within m.size) (hwithin' : v'.Within m'.size) :
    EndsTwin P m₀ m₀' (fun _ _ => True) (Eval.spawn v m) (Eval.spawn v' m') := by
  obtain ⟨hstore, hjob⟩ := spawned_twin hP h hm hm' hv hwithin hwithin'
  have hclosed : m'.world.closed = m.world.closed := Machine.outside_congr World.closed (fun _ => rfl) h.outside
  cases hopen : m.world.closed with
  | true =>
    rw [spawn_closed v hopen, spawn_closed v' (hclosed.trans hopen)]
    exact ⟨.error _, (h.withStore hstore).advance⟩
  | false =>
    rw [spawn_open v hopen, spawn_open v' (hclosed.trans hopen)]
    exact .log ((h.withStore hstore).advance.enqueue hjob) rfl

end Eval

/-! ## Builtins -/

namespace Primitive

open Eval Deed

variable {m₀ m₀' m m' : Machine}

/-- what `spawn` refuses of itself -/
def spawnFault : Value → Option Fault
  | .function f => if f.sig.params = [] then none else some (.spawnArity f.sig.params.length)
  | .builtin _ => none
  | v => some (.badCallback (name .spawn) (text "a function") v.typeName)

theorem run_spawn_eq (v : Value) : run idle .spawn [v] =
    match spawnFault v with
    | none => Eval.spawn v >>= fun _ => return .unit
    | some fault => raise fault := by
  cases v with
  | function f =>
    by_cases hparams : f.sig.params = []
    · simp only [run, functionArg, Value.isFunction, spawnFault, hparams]
      rfl
    · simp only [run, functionArg, Value.isFunction, spawnFault, hparams, ne_eq, not_false_eq_true, if_true, if_false]
      rfl
  | unit | number | string | bool | builtin | range | unknown => rfl

theorem spawnFault_paired {v v' : Value} (h : v.Paired P v') : spawnFault v' = spawnFault v := by
  cases h <;> rfl

theorem registerEvent_twin (h : Machine.Twin P m₀ m₀' m m') {event event' v v' : Value}
    (hevent : event.Paired P event') (hv : v.Paired P v') :
    EndsTwin P m₀ m₀' (Value.Paired P) (run idle .registerEvent [event, v] m)
      (run idle .registerEvent [event', v'] m') := by
  refine .bind (.of_outward (outward_stringArg _ hevent.resembles) h) fun _ event n n' hsame hn => ?_
  subst hsame
  refine .bind (.of_outward (outward_functionArg _ hv.resembles) hn) fun _ _ n n' _ hn => ?_
  have hadd : EndsTwin P m₀ m₀' (fun _ _ => True)
      (changeInterpreter (fun i => { i with handlers := addHandler event v i.handlers }) n)
      (changeInterpreter (fun i => { i with handlers := addHandler event v' i.handlers }) n') := by
    have hi := hn.interpreter
    refine ⟨.ok trivial, hn.withInterpreter ⟨hi.core, hi.global, hi.limit, hi.frames, ?_, hi.path⟩⟩
    exact addHandler_paired event hv hi.handlers
  refine .bind hadd fun _ _ n n' _ hn => ?_
  refine .bind (.log hn ?_) fun _ _ n n' _ hn => ⟨.ok .unit, hn⟩
  rw [(handlersOf_paired hn.interpreter event).length_eq]

theorem triggerEvent_twin (h : Machine.Twin P m₀ m₀' m m') {event event' : Value} (hevent : event.Paired P event') :
    EndsTwin P m₀ m₀' (Value.Paired P) (run idle .triggerEvent [event] m) (run idle .triggerEvent [event'] m') := by
  refine .bind (.of_outward (outward_stringArg _ hevent.resembles) h) fun _ event n n' hsame hn => ?_
  subst hsame
  have hlength := (handlersOf_paired hn.interpreter event).length_eq
  simp only [callAll_idle]
  refine ⟨.ok ?_, hn⟩
  rw [hlength]
  exact .number

/-- **Builtins in step.** -/
theorem run_twin (hP : P.OneToOne) (h : Machine.Twin P m₀ m₀' m m') (hm : m.WellFormed) (hm' : m'.WellFormed)
    (p : Primitive) {vs vs' : List Value} (hvs : List.Forall₂ (Value.Paired P) vs vs')
    (hwithin : ∀ v ∈ vs, v.Within m.size) (hwithin' : ∀ v ∈ vs', v.Within m'.size) :
    EndsTwin P m₀ m₀' (Value.Paired P) (p.run idle vs m) (p.run idle vs' m') := by
  by_cases hp : p.isOutward = true
  · have hplain := (run_idle p vs m).2
    obtain ⟨r, o, es, hrun, hrun', -⟩ := outward_run hp (hvs.imp fun _ _ h => h.resembles) m m' h.outside
    rw [hrun] at hplain
    rw [hrun, hrun']
    refine ⟨?_, h.proceed o es⟩
    cases r with
    | error e => exact .error e
    | ok v => exact .ok (.plain (hplain v rfl))
  cases p.given vs with
  | wrong harity hne =>
    rw [run_of_length_ne harity hne, run_of_length_ne harity (by rwa [← hvs.length_eq])]
    exact ⟨.ok .unit, h⟩
  | spawn =>
    rcases hvs with _ | ⟨hv, ⟨⟩⟩
    rw [run_spawn_eq, run_spawn_eq, spawnFault_paired hv]
    cases spawnFault _ with
    | some fault => exact ⟨.error _, h⟩
    | none =>
      have hspawn := spawn_twin hP h hm hm' hv (hwithin _ List.mem_cons_self) (hwithin' _ List.mem_cons_self)
      exact .bind hspawn fun _ _ n n' _ hn => ⟨.ok .unit, hn⟩
  | registerEvent =>
    rcases hvs with _ | ⟨hevent, _ | ⟨hv, ⟨⟩⟩⟩
    exact registerEvent_twin h hevent hv
  | triggerEvent =>
    rcases hvs with _ | ⟨hevent, ⟨⟩⟩
    exact triggerEvent_twin h hevent
  | _ => exact absurd rfl hp

end Primitive

/-! ## Deeds -/

namespace Deed

open Eval

variable {m₀ m₀' m m' : Machine}

/-- the deed is told only of scopes that are there, on a well-formed machine -/
def Fitting (d : Deed) (m : Machine) : Prop := m.WellFormed ∧ d.Fits m.size

theorem along_fitting {deeds : List Deed} (hm : m.WellFormed) (hfit : AllFit deeds m) : Along Fitting deeds m := by
  induction deeds generalizing m with
  | nil => trivial
  | cons d deeds ih => exact ⟨⟨hm, hfit.1⟩, ih (d.wellFormed_effect hm hfit.1).1 hfit.2⟩

theorem declare_twin (hP : P.OneToOne) (h : Machine.Twin P m₀ m₀' m m') {i i' : ScopeId} (hi : P i i')
    {decl decl' : Declaration} (hdecl : decl.Paired P decl') :
    EndsTwin P m₀ m₀' P ((declare i decl).act m) ((declare i' decl').act m') := by
  have htaken := h.store.isSome_bound? hi decl.name
  rw [act_declare, act_declare, hdecl.name, htaken]
  by_cases hbound : (m.world.store.bound? i decl.name).isSome = true
  · rw [if_pos hbound, if_pos hbound]
    have hnew : P m.size m'.size := h.store.next 0
    exact ⟨.ok hnew, h.withStore ((h.store.push hP hi).define hP hnew _ (hdecl.bound hnew))⟩
  · rw [if_neg hbound, if_neg hbound]
    exact ⟨.ok hi, h.withStore (h.store.define hP hi _ (hdecl.bound hi))⟩

/-- **One deed in step.** -/
theorem act_twin (hP : P.OneToOne) (h : Machine.Twin P m₀ m₀' m m') {d d' : Deed} (hd : d.Paired P d')
    (hfit : d.Fitting m) (hfit' : d'.Fitting m') :
    EndsTwin P m₀ m₀' (AnswersPaired P d d') (d.act m) (d'.act m') := by
  cases hd with
  | openScope hi hbs =>
    rw [act_openScope, act_openScope]
    have hnew : P m.size m'.size := h.store.next 0
    exact ⟨.ok hnew, h.withStore ((h.store.push hP hi).defineAll hP hnew hbs)⟩
  | declare hi hdecl => exact declare_twin hP h hi hdecl
  | @set i i' name v v' hi hv =>
    have hbound := h.store.isSome_bound? hi name
    rw [act_set, act_set, hbound]
    refine ⟨.ok trivial, h.withStore ?_⟩
    split
    · exact h.store.define hP hi name hv
    · exact h.store
  | enter frame =>
    have hi := h.interpreter
    have hframes := congrArg (frame :: ·) hi.frames
    exact ⟨.ok trivial, h.withInterpreter ⟨hi.core, hi.global, hi.limit, hframes, hi.handlers, hi.path⟩⟩
  | leave =>
    have hi := h.interpreter
    have hframes := congrArg List.tail hi.frames
    exact ⟨.ok trivial, h.withInterpreter ⟨hi.core, hi.global, hi.limit, hframes, hi.handlers, hi.path⟩⟩
  | moveGlobal hscope =>
    have hi := h.interpreter
    exact ⟨.ok trivial, h.withInterpreter ⟨hi.core, hscope, hi.limit, hi.frames, hi.handlers, hi.path⟩⟩
  | note entry => exact .log h rfl
  | remember =>
    exact ⟨.ok trivial, ⟨h.store, h.outside, h.hosts, h.portable, h.orders, h.record, h.jobs⟩, h.interpreter⟩
  | trace function stage =>
    refine .log h ?_
    rw [h.interpreter.frames]
  | builtin p hvs => exact Primitive.run_twin hP h hfit.1 hfit'.1 p hvs hfit.2 hfit'.2

end Deed

namespace Machine

variable {m₀ m₀' : Machine}

/-- twins correspond -/
theorem correspondence_twin (hP : P.OneToOne) (m₀ m₀' : Machine) :
    Correspondence P .unkept (Twin P m₀ m₀') Deed.Fitting Deed.Fitting where
  bound := fun h _ _ hi name => h.store.bound? hi name
  parent := fun h _ _ hi => h.store.parent? hi
  core := fun h _ _ hi => hP hi h.interpreter.core
  limit := fun h => h.interpreter.limit
  frames := fun h => h.interpreter.frames
  handlers := fun h event => Primitive.handlersOf_paired h.interpreter event
  hosts := by
    intro m m' h index
    rw [h.hosts]
    cases hoperation : m.world.hosts[index]? with
    | none => exact .none
    | some operation => exact .some (h.portable operation (Array.mem_of_getElem? hoperation) P hP)
  global := fun _ _ _ h => ⟨h.interpreter.global, fun hi => hP hi h.interpreter.global⟩
  builtins := fun _ _ _ h => h.interpreter.core
  memory := nofun
  deed := fun h _ _ hd hfit hfit' => Deed.act_twin hP h hd hfit hfit'

end Machine

/-! ## Operations and work -/

/-- a well-formed machine stands at its site -/
theorem Machine.WellFormed.holds {m : Machine} (hm : m.WellFormed) :
    Site.Holds ⟨m.interpreter.limit, m.interpreter.frames⟩ m := ⟨hm, rfl, rfl⟩

namespace Operation

open Eval

variable {m₀ m₀' m m' : Machine}

/-- **Operations in step.** -/
theorem perform_twin (hP : P.OneToOne) (h : Machine.Twin P m₀ m₀' m m') (hm : m.WellFormed) (hm' : m'.WellFormed)
    {op op' : Operation} (hop : op.Paired P op') (hfits : op.Fits m.size) (hfits' : op'.Fits m'.size) :
    EndsAlike (Value.Paired P) (op.perform m).1 (op'.perform m').1 ∧
      Machine.Twin P m₀ m₀' (op.perform m).2 (op'.perform m').2 := by
  obtain ⟨N, deeds, hends, hdeeds, hfit⟩ := (settles_step op hfits m hm.holds (Nat.le_refl _)).ends
  obtain ⟨N', deeds', hends', hdeeds', hfit'⟩ := (settles_step op' hfits' m' hm'.holds (Nat.le_refl _)).ends
  rw [step_apply] at hends hends' hdeeds hdeeds'
  have hcorrespond := Machine.correspondence_twin hP m₀ m₀'
  have hfitting := Deed.along_fitting hm hfit
  have hfitting' := Deed.along_fitting hm' hfit'
  obtain ⟨hend, hpaired⟩ := (matches_runWithin hcorrespond trivial (max N N') hop).alike h
    (hends _ (Nat.le_max_left N N')) (hends' _ (Nat.le_max_right N N')) hfitting hfitting'
  have htwin := hcorrespond.performAll hpaired h hfitting hfitting'
  rw [hdeeds, hdeeds'] at htwin
  cases hend with
  | ok hend => exact ⟨hend, htwin⟩

end Operation

/-- reports the failure of spawned work -/
def Job.report (job : Job) (ds : List Diagnostic) : Eval Unit := do
  Eval.log fun _ => ⟨text "spawned call failed", [(text "function", job.name), (text "error", summarize ds)]⟩
  Eval.perform (.err ((Failure.diagnostics ds).report (Machine.jobSource job.name) [] ++ text "\n"))

namespace Machine

open Eval

variable {m₀ m₀' m m' : Machine}

theorem runJob_eq (m : Machine) (job : Job) : m.runJob job = ⟨m.interpreter,
    (match Machine.call ⟨job.interpreter, m.world⟩ job.work [] with
      | (.ok _, child) => child
      | (.error ds, child) => (job.report ds child).2).world⟩ := by
  simp only [runJob]
  rcases Machine.call ⟨job.interpreter, m.world⟩ job.work [] with ⟨e | v, child⟩ <;> rfl

theorem outward_report {job job' : Job} (h : job'.name = job.name) (ds : List Diagnostic) :
    Outward (job.report ds) (job'.report ds) := by
  unfold Job.report
  rw [h]
  exact .bind (outward_log _) fun _ => outward_perform _

/-- **Work in step.** -/
theorem runJob_twin (hP : P.OneToOne) (h : Alike P m₀ m₀' m m') {job job' : Job} (hjob : job.Paired P job')
    (hm : Machine.WellFormed ⟨job.interpreter, m.world⟩) (hm' : Machine.WellFormed ⟨job'.interpreter, m'.world⟩)
    (hwork : job.work.Within m.size) (hwork' : job'.work.Within m'.size) :
    Alike P m₀ m₀' (m.runJob job) (m'.runJob job') := by
  have htwin : Twin P m₀ m₀' ⟨job.interpreter, m.world⟩ ⟨job'.interpreter, m'.world⟩ :=
    ⟨h.inside _ _, hjob.interpreter⟩
  have hcall := Operation.perform_twin hP htwin hm hm' (.call hjob.work .nil) ⟨hwork, List.forall_mem_nil _⟩
    ⟨hwork', List.forall_mem_nil _⟩
  simp only [Operation.perform] at hcall
  rw [runJob_eq, runJob_eq]
  generalize Machine.call ⟨job.interpreter, m.world⟩ job.work [] = r at hcall
  generalize Machine.call ⟨job'.interpreter, m'.world⟩ job'.work [] = r' at hcall
  obtain ⟨r, child⟩ := r
  obtain ⟨r', child'⟩ := r'
  obtain ⟨hend, hchild⟩ := hcall
  cases hend with
  | ok => exact hchild.inside _ _
  | error ds => exact (EndsTwin.of_outward (outward_report hjob.name ds) hchild).2.inside _ _

end Machine

end Ouroboros
