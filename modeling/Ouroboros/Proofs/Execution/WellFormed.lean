/-
Machines that refer to nothing that is not there.

A value is within `n` when the scope of the function that it is, if it is one, is among the first `n`. A well-formed machine
has a well-formed store, and its two outermost scopes, its handlers, its host operations and what the host keeps are within
the store. A host operation is when it hands out nothing beyond the store as long as it is given nothing beyond it, also
later, when there are more scopes. Every deed keeps a machine well-formed when what it is told is within the store.

In a well-formed store the scope around a scope came before it (`Store.Ordered`). So the chain of scopes ends, and looking
for a name goes on from a scope to the scope around it and stops (`Store.owner?_eq`).
-/
import Ouroboros.Proofs.Execution.Deeds
import Ouroboros.Proofs.Execution.Hosts

namespace Ouroboros

/-- the value refers to the first `n` scopes only -/
def Value.Within (n : Nat) (v : Value) : Prop := ∀ f, v = .function f → f.scope < n

/-- among the first `n` scopes, for any number of scopes that there come to be -/
def HostLaw.within : HostLaw Nat := ⟨(· ≤ ·), fun n v => v.Within n, fun n scope => scope < n⟩

/-- with `n` scopes or more, the host's operation hands out only what is there -/
abbrev HostOperation.Within (n : Nat) (operation : HostOperation) : Prop := operation.Meets .within n

theorem Value.Within.mono {n k : Nat} {v : Value} (h : v.Within n) (hk : n ≤ k) : v.Within k :=
  fun f hf => Nat.lt_of_lt_of_le (h f hf) hk

theorem Value.IsPlain.within {v : Value} (h : v.IsPlain) (n : Nat) : v.Within n := fun f hf => absurd hf (h f)

theorem Value.within_unit (n : Nat) : Value.unit.Within n := nofun

theorem Value.within_number (n : Nat) (x : Number) : (Value.number x).Within n := nofun

theorem Value.within_string (n : Nat) (t : Bytes) : (Value.string t).Within n := nofun

theorem HostOperation.Within.mono {n k : Nat} {operation : HostOperation} (h : operation.Within n) (hk : n ≤ k) :
    operation.Within k := HostOperation.Meets.mono Nat.le_trans h hk

/-- the completion's value refers to the first `n` scopes only -/
def Completion.Within (n : Nat) : Completion → Prop
  | .normal v | .returned v => v.Within n

theorem Completion.Within.mono {n k : Nat} {e : Completion} (h : e.Within n) (hk : n ≤ k) : e.Within k := by
  cases e with
  | normal v => exact Value.Within.mono h hk
  | returned v => exact Value.Within.mono h hk

theorem Completion.Within.asBlock {n : Nat} {e : Completion} (h : e.Within n) : e.asBlock.Within n := by
  cases e with
  | normal v => exact Value.within_unit n
  | returned v => exact h

/-! ## Tables -/

namespace Table

theorem mem_insert {t : Table} {name : Bytes} {v : Value} {b : Bytes × Value} (h : b ∈ t.insert name v) :
    b ∈ t ∨ b = (name, v) := by
  induction t with
  | nil => exact .inr (List.mem_singleton.mp h)
  | cons first t ih =>
    rcases first with ⟨other, w⟩
    by_cases hother : other = name
    · rw [insert, if_pos hother] at h
      rcases List.mem_cons.mp h with rfl | h
      · exact .inr (by rw [hother])
      · exact .inl (List.mem_cons_of_mem _ h)
    · rw [insert, if_neg hother] at h
      rcases List.mem_cons.mp h with rfl | h
      · exact .inl List.mem_cons_self
      · rcases ih h with h | h
        · exact .inl (List.mem_cons_of_mem _ h)
        · exact .inr h

theorem nodup_insert {t : Table} (h : (t.map Prod.fst).Nodup) (name : Bytes) (v : Value) :
    ((t.insert name v).map Prod.fst).Nodup := by
  induction t with
  | nil => simp [insert]
  | cons first t ih =>
    rcases first with ⟨other, w⟩
    rw [List.map_cons, List.nodup_cons] at h
    by_cases hother : other = name
    · rw [insert, if_pos hother, List.map_cons, List.nodup_cons]
      exact h
    · rw [insert, if_neg hother, List.map_cons, List.nodup_cons]
      refine ⟨fun hmem => ?_, ih h.2⟩
      obtain ⟨b, hb, hname⟩ := List.mem_map.mp hmem
      rcases mem_insert hb with hb | rfl
      · exact h.1 (List.mem_map.mpr ⟨b, hb, hname⟩)
      · exact hother hname.symm

end Table

/-- the builtins at the start are no functions of programs, and no name is there twice -/
theorem coreTable_plain : (coreTable.map Prod.fst).Nodup ∧ ∀ b ∈ coreTable, b.2.IsPlain := by
  have h : ∀ (ps : List Primitive) (t : Table), ((t.map Prod.fst).Nodup ∧ ∀ b ∈ t, b.2.IsPlain) →
      let t' := ps.foldl (fun t p => t.insert p.name (.builtin p.builtin)) t
      (t'.map Prod.fst).Nodup ∧ ∀ b ∈ t', b.2.IsPlain := by
    intro ps
    induction ps with
    | nil => intro t ht; exact ht
    | cons p ps ih =>
      intro t ht
      refine ih _ ⟨Table.nodup_insert ht.1 _ _, fun b hb => ?_⟩
      rcases Table.mem_insert hb with hb | rfl
      · exact ht.2 b hb
      · nofun
  exact h Primitive.all [] ⟨List.nodup_nil, nofun⟩

theorem plain_of_lookup {name : Bytes} {v : Value} (h : coreTable.lookup name = some v) : v.IsPlain :=
  coreTable_plain.2 (name, v) (mem_of_lookup h)

/-! ## Stores -/

/-- the scope around a scope came before it -/
def Store.Ordered (s : Store) : Prop := ∀ {id p : ScopeId}, s.parent? id = some p → p < id

namespace Store.WellFormed

variable {s : Store}

theorem bound (h : s.WellFormed) {id : ScopeId} {name : Bytes} {v : Value} (hv : s.bound? id name = some v) :
    v.Within s.scopes.size := by
  rintro f rfl
  obtain ⟨scope, hscope, hmem⟩ := Store.exists_mem_of_bound? hv
  exact h.function hscope hmem

theorem parent? (h : s.WellFormed) {id p : ScopeId} (hp : s.parent? id = some p) : p < id := by
  obtain ⟨scope, hscope, hparent⟩ := Option.bind_eq_some_iff.mp hp
  exact h.parent hscope hparent

theorem ordered (h : s.WellFormed) : s.Ordered := h.parent?

/-- one more scope, inside one that is there or inside none, and without functions -/
theorem add (h : s.WellFormed) {scope : Scope} (hparent : ∀ p, scope.parent = some p → p < s.scopes.size)
    (hplain : ∀ b ∈ scope.table, b.2.IsPlain) (hnames : (scope.table.map Prod.fst).Nodup) :
    Store.WellFormed ⟨s.scopes.push scope⟩ := by
  have hcases : ∀ {i : ScopeId} {sc : Scope}, (s.scopes.push scope)[i]? = some sc →
      (i = s.scopes.size ∧ sc = scope) ∨ s.scopes[i]? = some sc := by
    intro i sc hsc
    rw [Array.getElem?_push] at hsc
    split at hsc
    · exact .inl ⟨‹_›, (Option.some.inj hsc).symm⟩
    · exact .inr hsc
  constructor
  · intro i sc p hsc hp
    rcases hcases hsc with ⟨rfl, rfl⟩ | hsc
    · exact hparent p hp
    · exact h.parent hsc hp
  · intro i sc name f hsc hf
    rcases hcases hsc with ⟨-, rfl⟩ | hsc
    · exact absurd rfl (hplain _ hf f)
    · simpa only [Array.size_push] using Nat.lt_succ_of_lt (h.function hsc hf)
  · intro i sc hsc
    rcases hcases hsc with ⟨-, rfl⟩ | hsc
    · exact hnames
    · exact h.names hsc

theorem push (h : s.WellFormed) {parent : ScopeId} (hparent : parent < s.scopes.size) :
    (s.push (some parent)).2.WellFormed := by
  refine h.add ?_ nofun List.nodup_nil
  rintro p ⟨⟩
  exact hparent

theorem pushCore (h : s.WellFormed) : (s.pushCore).2.2.WellFormed := by
  have hcore : Store.WellFormed ⟨s.scopes.push ⟨none, coreTable⟩⟩ := h.add nofun coreTable_plain.2 coreTable_plain.1
  refine hcore.add ?_ nofun List.nodup_nil
  rintro p ⟨⟩
  simp only [Array.size_push]
  exact Nat.lt_succ_self _

theorem define (h : s.WellFormed) {v : Value} (hv : v.Within s.scopes.size) (id : ScopeId) (name : Bytes) :
    (s.define id name v).WellFormed := by
  -- a scope of the new store is a scope of the old one, perhaps with the binding
  have hold : ∀ {i : ScopeId} {scope : Scope}, (s.define id name v).scopes[i]? = some scope →
      ∃ old, s.scopes[i]? = some old ∧ scope.parent = old.parent ∧
        (scope.table = old.table ∨ scope.table = old.table.insert name v) := by
    intro i scope hscope
    rw [Snapshot.getElem?_define] at hscope
    split at hscope
    · obtain ⟨old, hold, rfl⟩ := Option.map_eq_some_iff.mp hscope
      exact ⟨old, hold, rfl, .inr rfl⟩
    · exact ⟨scope, hscope, rfl, .inl rfl⟩
  constructor
  · intro i scope p hscope hp
    obtain ⟨old, hscope, hparent, -⟩ := hold hscope
    exact h.parent hscope (hparent ▸ hp)
  · intro i scope other f hscope hf
    rw [Snapshot.size_define]
    obtain ⟨old, hscope, -, htable | htable⟩ := hold hscope
    · exact h.function hscope (htable ▸ hf)
    · rw [htable] at hf
      rcases Table.mem_insert hf with hf | hf
      · exact h.function hscope hf
      · exact hv f (Prod.mk.inj hf).2.symm
  · intro i scope hscope
    obtain ⟨old, hscope, -, htable | htable⟩ := hold hscope
    · rw [htable]
      exact h.names hscope
    · rw [htable]
      exact Table.nodup_insert (h.names hscope) _ _

theorem defineAll (h : s.WellFormed) (scope : ScopeId) {bindings : List (Bytes × Value)}
    (hb : ∀ b ∈ bindings, b.2.Within s.scopes.size) :
    (s.defineAll scope bindings).WellFormed ∧ (s.defineAll scope bindings).scopes.size = s.scopes.size := by
  induction bindings generalizing s with
  | nil => exact ⟨h, rfl⟩
  | cons b rest ih =>
    rw [List.forall_mem_cons] at hb
    have hsize := Snapshot.size_define s scope b.1 b.2
    obtain ⟨hwell, hsize'⟩ := ih (h.define hb.1 scope b.1) (by rw [hsize]; exact hb.2)
    exact ⟨hwell, hsize'.trans hsize⟩

end Store.WellFormed

namespace Store

variable {s : Store}

/-- where scopes are ordered, more steps than a scope's number lead no further along its chain -/
theorem chainWithin_congr (h : s.Ordered) {n k : Nat} {id : ScopeId} (hn : id < n) (hk : id < k) :
    s.chainWithin n id = s.chainWithin k id := by
  induction n generalizing k id with
  | zero => exact absurd hn (Nat.not_lt_zero _)
  | succ n ih =>
    cases k with
    | zero => exact absurd hk (Nat.not_lt_zero _)
    | succ k =>
      rw [chainWithin, chainWithin]
      cases hp : s.parent? id with
      | none => rfl
      | some p =>
        have hlt := h hp
        have hn' : p < n := Nat.lt_of_lt_of_le hlt (Nat.le_of_lt_succ hn)
        have hk' : p < k := Nat.lt_of_lt_of_le hlt (Nat.le_of_lt_succ hk)
        exact congrArg (id :: ·) (ih hn' hk')

/-- a name that the scope does not bind is looked for in the scope around it -/
theorem owner?_eq (h : s.Ordered) (id : ScopeId) (name : Bytes) :
    s.owner? id name =
      if (s.bound? id name).isSome then some id
      else
        match s.parent? id with
        | some p => s.owner? p name
        | none => none := by
  rw [owner?, chain, chainWithin, List.find?_cons]
  by_cases hbound : (s.bound? id name).isSome = true
  · simp only [hbound, if_true]
  · simp only [hbound]
    cases hp : s.parent? id with
    | none => rfl
    | some p =>
      have hchain : s.chainWithin id p = s.chain p := chainWithin_congr h (h hp) (Nat.lt_succ_self p)
      simp only [hchain]
      rfl

theorem bound?_owner {id owner : ScopeId} {name : Bytes} (h : s.owner? id name = some owner) :
    (s.bound? owner name).isSome := List.find?_some (p := fun e => (s.bound? e name).isSome) h

end Store

/-! ## Copies -/

namespace Snapshot

/-- copying can go on: the store is well-formed, and what stands for scopes is there -/
structure Sound (c : Copying) : Prop where
  store : c.store.WellFormed
  base : c.base < c.store.scopes.size
  copies : ∀ x ∈ c.copies, x.2 < c.store.scopes.size

/-- copying keeps the store well-formed and gives a scope of it -/
def Careful (copy : Copy) : Prop :=
  ∀ id c, Sound c → Sound (copy id c).2 ∧ c.store.scopes.size ≤ (copy id c).2.store.scopes.size ∧
    (copy id c).1 < (copy id c).2.store.scopes.size

theorem value_careful {copy : Copy} (hcopy : Careful copy) (v : Value) {c : Copying} (h : Sound c) :
    Sound (value copy v c).2 ∧ c.store.scopes.size ≤ (value copy v c).2.store.scopes.size ∧
      (value copy v c).1.Within (value copy v c).2.store.scopes.size := by
  cases v with
  | function f =>
    obtain ⟨hsound, hsize, hscope⟩ := hcopy f.scope c h
    refine ⟨hsound, hsize, ?_⟩
    rintro _ ⟨⟩
    exact hscope
  | unit | number | string | bool | builtin | range | unknown => exact ⟨h, Nat.le_refl _, nofun⟩

theorem Sound.define {c : Copying} (h : Sound c) {v : Value} (hv : v.Within c.store.scopes.size) (target : ScopeId)
    (name : Bytes) : Sound { c with store := c.store.define target name v } := by
  refine ⟨h.store.define hv target name, ?_, ?_⟩
  · rw [size_define]
    exact h.base
  · rw [size_define]
    exact h.copies

theorem table_careful {copy : Copy} (hcopy : Careful copy) (target : ScopeId) (t : Table) {c : Copying} (h : Sound c) :
    Sound (table copy target t c) ∧ c.store.scopes.size ≤ (table copy target t c).store.scopes.size := by
  induction t generalizing c with
  | nil => exact ⟨h, Nat.le_refl _⟩
  | cons b t ih =>
    obtain ⟨hsound, hsize, hvalue⟩ := value_careful hcopy b.2 h
    obtain ⟨hsound', hsize'⟩ := ih (hsound.define hvalue target b.1)
    rw [size_define] at hsize'
    exact ⟨hsound', Nat.le_trans hsize hsize'⟩

theorem scopeWith_careful {copy : Copy} (hcopy : Careful copy) : Careful (scopeWith copy) := by
  intro id c h
  by_cases hstop : id = c.stop
  · rw [scopeWith, if_pos hstop]
    exact ⟨h, Nat.le_refl _, h.base⟩
  cases hlookup : c.copies.lookup id with
  | some t =>
    simp only [scopeWith, if_neg hstop, hlookup]
    exact ⟨h, Nat.le_refl _, h.copies (id, t) (mem_of_lookup hlookup)⟩
  | none =>
    cases hscope : c.store.scopes[id]? with
    | none =>
      simp only [scopeWith, if_neg hstop, hlookup, hscope]
      exact ⟨h, Nat.le_refl _, h.base⟩
    | some scope =>
      rw [scopeWith_new hstop hlookup hscope]
      obtain ⟨hsound, hsize, hparent⟩ : Sound (around copy scope.parent c).2 ∧
          c.store.scopes.size ≤ (around copy scope.parent c).2.store.scopes.size ∧
          (around copy scope.parent c).1 < (around copy scope.parent c).2.store.scopes.size := by
        cases scope.parent with
        | none => exact ⟨h, Nat.le_refl _, h.base⟩
        | some p => exact hcopy p c h
      generalize around copy scope.parent c = r at hsound hsize hparent
      have hopened : Sound (opened id r) := by
        refine ⟨hsound.store.push hparent, ?_, ?_⟩
        · rw [size_opened]
          exact Nat.lt_succ_of_lt hsound.base
        · intro x hx
          rw [size_opened]
          rcases List.mem_cons.mp hx with rfl | hx
          · exact Nat.lt_succ_self _
          · exact Nat.lt_succ_of_lt (hsound.copies x hx)
      obtain ⟨hsound', hsize'⟩ := table_careful hcopy r.2.store.scopes.size (r.2.arrange scope.table) hopened
      rw [size_opened] at hsize'
      exact ⟨hsound', Nat.le_trans hsize (Nat.le_of_succ_le hsize'), hsize'⟩

theorem scopeWithin_careful (n : Nat) : Careful (scopeWithin n) := by
  induction n with
  | zero => exact fun _ _ h => ⟨h, Nat.le_refl _, h.base⟩
  | succ n ih => exact scopeWith_careful ih

end Snapshot

/-- spawning a function keeps the store well-formed -/
theorem Eval.spawned_wellFormed (v : Value) {m : Machine} (h : m.world.store.WellFormed) :
    (spawned v m).WellFormed := by
  have hnew : (m.world.newInterpreter m.interpreter.limit (false :: m.interpreter.path)).2.store.WellFormed := h.pushCore
  have hcore : (m.world.newInterpreter m.interpreter.limit (false :: m.interpreter.path)).1.core <
      (m.world.newInterpreter m.interpreter.limit (false :: m.interpreter.path)).2.store.scopes.size := by
    simp only [World.newInterpreter, Store.pushCore, Array.size_push]
    exact Nat.lt_succ_of_lt (Nat.lt_succ_self _)
  have htransfer : ∀ {s : Store} (stop : ScopeId) {base : ScopeId} (order : CopyOrder), s.WellFormed →
      base < s.scopes.size → (transfer stop base order v s).2.WellFormed := by
    intro s stop base order hs hbase
    have htake : (Snapshot.take stop base order v s).2.WellFormed :=
      (Snapshot.value_careful (Snapshot.scopeWithin_careful (Snapshot.depth s)) v
        (c := ⟨stop, base, order, s, []⟩) ⟨hs, hbase, fun x hx => absurd hx List.not_mem_nil⟩).1.store
    cases v with
    | builtin b => exact hs
    | unit | number | string | bool | function | range | unknown => exact htake
  exact htransfer m.interpreter.core _ hnew hcore

/-! ## Machines -/

/-- the two outermost scopes are there, and the store, the handlers, the host operations and what the host keeps refer to
scopes that are there -/
structure Machine.WellFormed (m : Machine) : Prop where
  store : m.world.store.WellFormed
  core : m.interpreter.core < m.world.store.scopes.size
  global : m.interpreter.global < m.world.store.scopes.size
  handlers : ∀ e ∈ m.interpreter.handlers, ∀ h ∈ e.2, h.Within m.world.store.scopes.size
  hosts : ∀ operation ∈ m.world.hosts, operation.Within m.world.store.scopes.size
  memory : ∀ v ∈ m.world.memory, v.Within m.world.store.scopes.size

/-- calling a function and failing with it hands out nothing else -/
theorem HostOperation.within_relaying (n : Nat) : relaying.Within n := by
  intro k hk args hargs
  cases args with
  | nil => exact Value.within_unit k
  | cons f args =>
    obtain ⟨hf, hrest⟩ := List.forall_mem_cons.mp hargs
    refine ⟨⟨hf, hrest⟩, fun i hi a ha => ?_⟩
    rcases a with d | v
    · trivial
    · exact ha v rfl

/-- the machines in which sessions start -/
theorem Machine.wellFormed_start (limit : Int) : (Machine.start .fresh limit).WellFormed := by
  have hempty : Store.empty.WellFormed := by
    constructor <;> intro id scope <;> simp [Store.empty]
  refine ⟨hempty.pushCore, Nat.zero_lt_two, Nat.lt_succ_self 1, ?_, ?_, ?_⟩
  · exact fun e he => absurd he List.not_mem_nil
  · exact fun a ha => absurd ha (Array.not_mem_empty a)
  · exact fun v hv => absurd hv List.not_mem_nil

/-- a host operation comes, and its builtin -/
theorem Machine.WellFormed.register {m : Machine} (hm : m.WellFormed) (name : Bytes) (arity : Option Nat)
    {operation : HostOperation} (hoperation : operation.Within m.world.store.scopes.size) :
    (m.register name arity operation).WellFormed := by
  have hsize : (m.register name arity operation).world.store.scopes.size = m.world.store.scopes.size :=
    Snapshot.size_define ..
  have hbuiltin : (Value.builtin (.ofHost name arity m.world.hosts.size)).Within m.world.store.scopes.size := nofun
  refine ⟨hm.store.define hbuiltin _ _, ?_, ?_, ?_, ?_, ?_⟩ <;> rw [hsize]
  · exact hm.core
  · exact hm.global
  · exact hm.handlers
  · intro other hother
    rcases Array.mem_push.1 hother with hother | rfl
    · exact hm.hosts other hother
    · exact hoperation
  · exact hm.memory

/-- the handlers of an event are among those registered -/
theorem Primitive.mem_handlersOf {i : Interpreter} {event : Bytes} {v : Value} (h : v ∈ handlersOf i event) :
    ∃ e ∈ i.handlers, v ∈ e.2 := by
  unfold handlersOf at h
  cases hlookup : i.handlers.lookup event with
  | none =>
    rw [hlookup] at h
    nomatch h
  | some hs =>
    rw [hlookup] at h
    exact ⟨(event, hs), mem_of_lookup hlookup, h⟩

namespace Machine.WellFormed

variable {m m' : Machine}

/-- other scopes, at least as many -/
theorem withStore (h : m.WellFormed) {s : Store} (hs : s.WellFormed) (hsize : m.world.store.scopes.size ≤ s.scopes.size) :
    (m.withStore s).WellFormed := by
  refine ⟨hs, Nat.lt_of_lt_of_le h.core hsize, Nat.lt_of_lt_of_le h.global hsize, ?_, ?_, ?_⟩
  · intro e he v hv
    exact (h.handlers e he v hv).mono hsize
  · intro operation hoperation
    exact (h.hosts operation hoperation).mono hsize
  · intro v hv
    exact (h.memory v hv).mono hsize

/-- another machine with the same scopes, the same of them outermost, and the same handlers and host -/
theorem congr (h : m.WellFormed) (hstore : m'.world.store = m.world.store)
    (hcore : m'.interpreter.core = m.interpreter.core) (hglobal : m'.interpreter.global = m.interpreter.global)
    (hhandlers : m'.interpreter.handlers = m.interpreter.handlers) (hhost : m.world.SameHost m'.world) :
    m'.WellFormed := by
  refine ⟨?_, ?_, ?_, ?_, ?_, ?_⟩ <;> simp only [hstore, hcore, hglobal, hhandlers, hhost.hosts, hhost.memory]
  · exact h.store
  · exact h.core
  · exact h.global
  · exact h.handlers
  · exact h.hosts
  · exact h.memory

/-- another machine with the same scopes, interpreter and host -/
theorem of_same (h : m.WellFormed) (hstore : m'.world.store = m.world.store)
    (hinterpreter : m'.interpreter = m.interpreter) (hhost : m.world.SameHost m'.world) : m'.WellFormed :=
  h.congr hstore (by rw [hinterpreter]) (by rw [hinterpreter]) (by rw [hinterpreter]) hhost

theorem handlersOf (h : m.WellFormed) (event : Bytes) :
    ∀ v ∈ Primitive.handlersOf m.interpreter event, v.Within m.world.store.scopes.size := by
  intro v hv
  obtain ⟨e, he, hmem⟩ := Primitive.mem_handlersOf hv
  exact h.handlers e he v hmem

end Machine.WellFormed

/-- the handlers with one more are those that were there, and the new one -/
theorem Primitive.mem_addHandler {event : Bytes} {h v : Value} {handlers : List (Bytes × List Value)}
    {e : Bytes × List Value} (he : e ∈ addHandler event h handlers) (hv : v ∈ e.2) :
    v = h ∨ ∃ e' ∈ handlers, v ∈ e'.2 := by
  induction handlers with
  | nil =>
    obtain rfl := List.mem_singleton.mp he
    exact .inl (List.mem_singleton.mp hv)
  | cons first rest ih =>
    rcases first with ⟨other, hs⟩
    by_cases hother : other = event
    · rw [addHandler, if_pos hother] at he
      rcases List.mem_cons.mp he with rfl | he
      · rcases List.mem_append.mp hv with hv | hv
        · exact .inr ⟨_, List.mem_cons_self, hv⟩
        · exact .inl (List.mem_singleton.mp hv)
      · exact .inr ⟨e, List.mem_cons_of_mem _ he, hv⟩
    · rw [addHandler, if_neg hother] at he
      rcases List.mem_cons.mp he with rfl | he
      · exact .inr ⟨_, List.mem_cons_self, hv⟩
      · rcases ih he with h | ⟨e', he', hv'⟩
        · exact .inl h
        · exact .inr ⟨e', List.mem_cons_of_mem _ he', hv'⟩

namespace Deed

/-- what the deed is told refers to the first `n` scopes only -/
def Fits (n : Nat) : Deed → Prop
  | .openScope parent bindings => parent < n ∧ ∀ b ∈ bindings, b.2.Within n
  | .declare scope (.value _ v) => scope < n ∧ v.Within n
  | .declare scope (.function ..) => scope < n
  | .set _ _ v => v.Within n
  | .builtin _ args => ∀ v ∈ args, v.Within n
  | .moveGlobal scope => scope < n
  | .remember vs => ∀ v ∈ vs, v.Within n
  | .enter .. | .leave | .trace .. | .note .. => True

/-- what the deed gives refers to the first `n` scopes only -/
def AnswerWithin (n : Nat) : (d : Deed) → d.Answer → Prop
  | .openScope .., (scope : ScopeId) | .declare .., (scope : ScopeId) => scope < n
  | .builtin .., (v : Value) => v.Within n
  | .set .., _ | .enter .., _ | .leave, _ | .trace .., _ | .moveGlobal .., _ | .note .., _ | .remember .., _ => True

theorem wellFormed_openScope {parent : ScopeId} {bindings : List (Bytes × Value)} {m : Machine} (h : m.WellFormed)
    (hd : (openScope parent bindings).Fits m.world.store.scopes.size) :
    ((openScope parent bindings).effect m).WellFormed ∧ ∀ a, ((openScope parent bindings).act m).1 = .ok a →
      (openScope parent bindings).AnswerWithin ((openScope parent bindings).effect m).world.store.scopes.size a := by
  have hpush := h.store.push hd.1
  have hwithin : ∀ b ∈ bindings, b.2.Within (m.world.store.push (some parent)).2.scopes.size := by
    intro b hb
    rw [Store.size_push]
    exact (hd.2 b hb).mono (Nat.le_succ _)
  obtain ⟨hstore, hsize⟩ := hpush.defineAll m.world.store.scopes.size hwithin
  rw [Store.size_push] at hsize
  rw [effect, act_openScope]
  refine ⟨h.withStore hstore (by omega), ?_⟩
  rintro a ⟨⟩
  exact Nat.lt_of_lt_of_eq (Nat.lt_succ_self _) hsize.symm

theorem wellFormed_declare {scope : ScopeId} {decl : Declaration} {m : Machine} (h : m.WellFormed)
    (hd : (declare scope decl).Fits m.world.store.scopes.size) :
    ((declare scope decl).effect m).WellFormed ∧ ∀ a, ((declare scope decl).act m).1 = .ok a →
      (declare scope decl).AnswerWithin ((declare scope decl).effect m).world.store.scopes.size a := by
  have hscope : scope < m.world.store.scopes.size := by
    cases decl with
    | value => exact hd.1
    | function => exact hd
  have hbound : ∀ {n target : Nat}, m.world.store.scopes.size ≤ n → target < n → (decl.bound target).Within n := by
    intro n target hn htarget
    cases decl with
    | value name v => exact hd.2.mono hn
    | function sig body =>
      rintro f ⟨⟩
      exact htarget
  rw [effect, act_declare]
  by_cases htaken : (m.world.store.bound? scope decl.name).isSome = true
  · rw [if_pos htaken]
    have hpush := h.store.push hscope
    have hsize := Store.size_push m.world.store (some scope)
    have hvalue : (decl.bound m.world.store.scopes.size).Within (m.world.store.push (some scope)).2.scopes.size :=
      hbound (by omega) (by omega)
    refine ⟨h.withStore (hpush.define hvalue _ _) ?_, ?_⟩
    · rw [Snapshot.size_define, hsize]
      exact Nat.le_succ _
    · rintro a ⟨⟩
      simp only [AnswerWithin, Machine.withStore, Snapshot.size_define, hsize]
      exact Nat.lt_succ_self _
  · rw [if_neg htaken]
    refine ⟨h.withStore (h.store.define (hbound (Nat.le_refl _) hscope) _ _) ?_, ?_⟩
    · rw [Snapshot.size_define]
    · rintro a ⟨⟩
      simp only [AnswerWithin, Machine.withStore, Snapshot.size_define]
      exact hscope

theorem wellFormed_builtin {p : Primitive} {args : List Value} {m : Machine} (h : m.WellFormed)
    (hd : (builtin p args).Fits m.world.store.scopes.size) : ((builtin p args).effect m).WellFormed := by
  rw [effect, act]
  rcases (Primitive.run_idle p args m).1 with ⟨hstore, hinterpreter, hhosts⟩ | ⟨v, -, hstore, hinterpreter, hhosts⟩ |
    ⟨event, v, hv, hstore, hinterpreter, hhosts⟩
  · exact h.of_same hstore hinterpreter hhosts
  · have hspawned := h.withStore (Eval.spawned_wellFormed v h.store) (Eval.spawned_kept v m).size
    refine hspawned.congr hstore ?_ ?_ ?_ ⟨hhosts.hosts, hhosts.memory, hhosts.orders⟩ <;> rw [hinterpreter] <;> rfl
  · refine ⟨?_, ?_, ?_, ?_, ?_, ?_⟩ <;> simp only [hstore, hinterpreter, hhosts.hosts, hhosts.memory]
    · exact h.store
    · exact h.core
    · exact h.global
    · intro e he w hw
      rcases Primitive.mem_addHandler he hw with rfl | ⟨e', he', hw'⟩
      · exact hd w hv
      · exact h.handlers e' he' w hw'
    · exact h.hosts
    · exact h.memory

/-- **Deeds keep machines well-formed.** A deed that is told only of scopes that are there leaves a well-formed machine,
and what it gives refers to scopes that are there. -/
theorem wellFormed_effect (d : Deed) {m : Machine} (h : m.WellFormed) (hd : d.Fits m.world.store.scopes.size) :
    (d.effect m).WellFormed ∧
      ∀ a, (d.act m).1 = .ok a → d.AnswerWithin (d.effect m).world.store.scopes.size a := by
  cases d with
  | openScope parent bindings => exact wellFormed_openScope h hd
  | declare scope decl => exact wellFormed_declare h hd
  | set owner name v =>
    rw [effect, act_set]
    split
    · exact ⟨h.withStore (h.store.define hd _ _) (Nat.le_of_eq (Snapshot.size_define ..).symm), fun _ _ => trivial⟩
    · exact ⟨h.withStore h.store (Nat.le_refl _), fun _ _ => trivial⟩
  | builtin p args =>
    refine ⟨wellFormed_builtin h hd, fun v hv => ?_⟩
    exact ((Primitive.run_idle p args m).2 v hv).within _
  | enter frame => exact ⟨⟨h.store, h.core, h.global, h.handlers, h.hosts, h.memory⟩, fun _ _ => trivial⟩
  | leave => exact ⟨⟨h.store, h.core, h.global, h.handlers, h.hosts, h.memory⟩, fun _ _ => trivial⟩
  | moveGlobal scope => exact ⟨⟨h.store, h.core, hd, h.handlers, h.hosts, h.memory⟩, fun _ _ => trivial⟩
  | remember vs => exact ⟨⟨h.store, h.core, h.global, h.handlers, h.hosts, hd⟩, fun _ _ => trivial⟩
  | trace function stage =>
    obtain ⟨hstore, hinterpreter, hhosts, -⟩ := Eval.quiet_trace function stage m
    exact ⟨h.of_same hstore hinterpreter hhosts, fun _ _ => trivial⟩
  | note entry =>
    obtain ⟨hstore, hinterpreter, hhosts, -⟩ := Eval.quiet_log (fun _ => entry) m
    exact ⟨h.of_same hstore hinterpreter hhosts, fun _ _ => trivial⟩

/-- deeds that are told only of scopes that are there at the time -/
def AllFit : List Deed → Machine → Prop
  | [], _ => True
  | d :: deeds, m => d.Fits m.world.store.scopes.size ∧ AllFit deeds (d.effect m)

theorem allFit_append {deeds deeds' : List Deed} {m : Machine} :
    AllFit (deeds ++ deeds') m ↔ AllFit deeds m ∧ AllFit deeds' (performAll deeds m) := by
  induction deeds generalizing m with
  | nil => simp [AllFit]
  | cons d deeds ih => simp [AllFit, ih, and_assoc]

theorem wellFormed_performAll {deeds : List Deed} {m : Machine} (h : m.WellFormed) (hd : AllFit deeds m) :
    (performAll deeds m).WellFormed := by
  induction deeds generalizing m with
  | nil => exact h
  | cons d deeds ih => exact ih (d.wellFormed_effect h hd.1).1 hd.2

/-- whether the deed leaves the active calls alone -/
def keepsCalls : Deed → Bool
  | .enter _ | .leave => false
  | .openScope .. | .declare .. | .set .. | .trace .. | .builtin .. | .moveGlobal .. | .note .. | .remember .. => true

/-- only entering and leaving change the active calls, and nothing changes the limit -/
theorem frames_effect {d : Deed} (hd : d.keepsCalls = true) (m : Machine) :
    (d.effect m).interpreter.frames = m.interpreter.frames ∧
      (d.effect m).interpreter.limit = m.interpreter.limit := by
  cases d with
  | openScope parent bindings =>
    rw [effect, act_openScope]
    exact ⟨rfl, rfl⟩
  | declare scope decl =>
    rw [effect, act_declare]
    split <;> exact ⟨rfl, rfl⟩
  | set | moveGlobal | remember => exact ⟨rfl, rfl⟩
  | builtin p args =>
    rw [effect, act]
    rcases (Primitive.run_idle p args m).1 with ⟨-, hinterpreter, -⟩ | ⟨v, -, -, hinterpreter, -⟩ |
      ⟨event, v, -, -, hinterpreter, -⟩ <;> rw [hinterpreter] <;> exact ⟨rfl, rfl⟩
  | enter frame => exact absurd hd Bool.false_ne_true
  | leave => exact absurd hd Bool.false_ne_true
  | trace function stage =>
    rw [effect, act, (Eval.quiet_trace function stage m).2.1]
    exact ⟨rfl, rfl⟩
  | note entry =>
    rw [effect, act, (Eval.quiet_log (fun _ => entry) m).2.1]
    exact ⟨rfl, rfl⟩

end Deed

end Ouroboros
