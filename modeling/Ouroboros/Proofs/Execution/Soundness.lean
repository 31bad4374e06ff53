/-
Values are sound in every state that a session comes to.

A value is sound in a store (`Value.SoundIn`) when a number counts as an integer only if it is one, a range does not end
before it begins, and a function sees a scope that is there, whose chain of scopes has no scope twice and ends in the scope
of the builtins. In a machine with sound values (`Machine.HoldsSound`) all scopes and handlers hold such values. Scopes that
were made for spawned work have builtins of their own, and their functions see chains that end there.

`Machine.values_sound` says of a new machine that runs source texts one after the other: after each deed it holds sound
values; every call, at any depth, is made with sound values and gives a sound value, for the run that stops as soon as this
is not so (`Discipline.watchWithin`) does not stop; and what the texts give is sound.
-/
import Ouroboros.Proofs.Execution.Enclosed
import Ouroboros.Proofs.Snapshot.Holding

namespace Ouroboros

/-! ## Chains that end in builtins -/

/-- the scope is there, and its chain has no scope twice and ends in the scope `core`, around which there is none -/
structure Store.EndsIn (s : Store) (core i : ScopeId) : Prop where
  there : i < s.scopes.size
  acyclic : (s.chain i).Nodup
  last : (s.chain i).getLast? = some core
  outermost : s.parent? core = none

namespace Store

variable {s s' : Store} {core i : ScopeId}

theorem chain_eq (hs : s.WellFormed) (i : ScopeId) :
    s.chain i = i :: match s.parent? i with
      | some p => s.chain p
      | none => [] := by
  rw [chain, chainWithin]
  cases hp : s.parent? i with
  | none => rfl
  | some p => exact congrArg (i :: ·) (chainWithin_congr hs.ordered (hs.parent? hp) (Nat.lt_succ_self p))

/-- along a chain the numbers of scopes decrease -/
theorem le_of_mem_chain (hs : s.WellFormed) {e : ScopeId} (he : e ∈ s.chain i) : e ≤ i := by
  induction i using Nat.strongRecOn with
  | ind i ih =>
    rw [chain_eq hs] at he
    rcases List.mem_cons.mp he with rfl | he
    · exact Nat.le_refl _
    · cases hp : s.parent? i with
      | none =>
        rw [hp] at he
        cases he
      | some p =>
        rw [hp] at he
        have hlt := hs.parent? hp
        exact Nat.le_trans (ih p hlt he) (Nat.le_of_lt hlt)

theorem nodup_chain (hs : s.WellFormed) (i : ScopeId) : (s.chain i).Nodup := by
  induction i using Nat.strongRecOn with
  | ind i ih =>
    rw [chain_eq hs]
    cases hp : s.parent? i with
    | none => exact List.nodup_singleton i
    | some p =>
      have hlt := hs.parent? hp
      refine List.nodup_cons.mpr ⟨fun hmem => ?_, ih p hlt⟩
      exact absurd (le_of_mem_chain hs hmem) (Nat.not_le.mpr hlt)

theorem getLast?_chain (hs : s.WellFormed) (hcore : s.parent? core = none) (h : s.Under (· = core) 0 i) :
    (s.chain i).getLast? = some core := by
  induction h with
  | of h =>
    subst h
    rw [chain_eq hs, hcore]
    rfl
  | within _ hp _ ih => rw [chain_eq hs, hp, List.getLast?_cons, ih, Option.getD_some]

theorem endsIn_of_under (hs : s.WellFormed) (hsize : core < s.scopes.size) (hcore : s.parent? core = none)
    (h : s.Under (· = core) 0 i) : s.EndsIn core i := by
  refine ⟨h.lt fun j hj => ?_, nodup_chain hs i, getLast?_chain hs hcore h, hcore⟩
  rw [hj]
  exact hsize

/-- every chain ends -/
theorem exists_under (hs : s.WellFormed) (hi : i < s.scopes.size) :
    ∃ core, core < s.scopes.size ∧ s.parent? core = none ∧ s.Under (· = core) 0 i := by
  induction i using Nat.strongRecOn with
  | ind i ih =>
    cases hp : s.parent? i with
    | none => exact ⟨i, hi, hp, .of rfl⟩
    | some p =>
      have hlt := hs.parent? hp
      obtain ⟨core, hsize, hcore, hunder⟩ := ih p hlt (Nat.lt_trans hlt hi)
      exact ⟨core, hsize, hcore, .within (Nat.zero_le _) hp hunder⟩

end Store

/-! ## Sound values -/

/-- a sound value, whose scope, if it is a function, has a chain that ends in `core` -/
def Value.SoundIn (s : Store) (core : ScopeId) (v : Value) : Prop :=
  v.Sound ∧ ∀ f, v = .function f → s.EndsIn core f.scope

/-- Scopes and handlers hold sound values. The functions in a scope, and the scope itself, have chains with one end; for the
global scope and the handlers it is the scope of the machine's builtins. -/
structure Machine.HoldsSound (m : Machine) : Prop where
  scopes : ∀ (i : ScopeId) (scope : Scope), m.world.store.scopes[i]? = some scope →
    ∃ core, m.world.store.EndsIn core i ∧ ∀ b ∈ scope.table, b.2.SoundIn m.world.store core
  handlers : ∀ e ∈ m.interpreter.handlers, ∀ h ∈ e.2, h.SoundIn m.world.store m.interpreter.core
  global : m.world.store.EndsIn m.interpreter.core m.interpreter.global

/-- each outermost scope encloses sound values -/
def Store.Rooted (s : Store) : Prop :=
  ∀ core, core < s.scopes.size → s.parent? core = none → s.Encloses (· = core) 0 Value.Sound

theorem Store.Rooted.sound {s : Store} (h : s.Rooted) (hs : s.WellFormed) {i : ScopeId} {scope : Scope}
    (hscope : s.scopes[i]? = some scope) : ∀ b ∈ scope.table, b.2.Sound := by
  intro b hb
  obtain ⟨core, hsize, hcore, hunder⟩ := exists_under hs (lt_of_getElem? hscope)
  exact ((h core hsize hcore).table hunder hscope hb).1

/-! ## Spawned work -/

namespace Eval

variable {m : Machine}

/-- of the scopes from `n` on only the first has none around it, and all scopes hold sound values -/
structure Founded (n : Nat) (s : Store) : Prop where
  parent : ∀ {i : ScopeId} {scope : Scope}, n < i → s.scopes[i]? = some scope → scope.parent ≠ none
  sound : ∀ {i : ScopeId} {scope : Scope} {b : Bytes × Value}, s.scopes[i]? = some scope → b ∈ scope.table → b.2.Sound

theorem invariant_founded (n : Nat) : Snapshot.Invariant (Founded n) Value.Sound where
  held h hscope hb := h.sound hscope hb
  push parent h := by
    refine ⟨fun hi hscope => ?_, fun hscope hb => ?_⟩ <;> rw [Store.getElem?_push] at hscope <;> split at hscope
    · cases hscope
      nofun
    · exact h.parent hi hscope
    · cases hscope
      cases hb
    · exact h.sound hscope hb
  define target name h hv := by
    refine ⟨fun {i scope} hi hscope => ?_, fun hscope hb => ?_⟩
    · rw [Snapshot.getElem?_define] at hscope
      split at hscope
      · obtain ⟨old, hold, rfl⟩ := Option.map_eq_some_iff.mp hscope
        have hparent : old.parent ≠ none := h.parent hi hold
        exact hparent
      · exact h.parent hi hscope
    · rcases Store.mem_define hscope hb with ⟨old, hold, hb⟩ | ⟨-, rfl⟩
      · exact h.sound hold hb
      · exact hv
  copied _ hf := hf

theorem sound_coreTable : ∀ b ∈ coreTable, b.2.Sound := by
  have hbuiltins : coreTable.all (fun b => b.2.isFunction) = true := by decide +kernel
  intro b hb
  have hfunction := List.all_eq_true.mp hbuiltins b hb
  cases hv : b.2 with
  | function | builtin => trivial
  | unit | number | string | bool | range | unknown =>
    rw [hv] at hfunction
    cases hfunction

/-- before anything is copied -/
theorem founded_pushCore (hm : m.WellFormed) (hrooted : m.world.store.Rooted) :
    Founded m.size m.world.store.pushCore.2.2 := by
  have hcases : ∀ {i : ScopeId} {scope : Scope}, m.world.store.pushCore.2.2.scopes[i]? = some scope →
      scope = ⟨some m.size, []⟩ ∨ i = m.size ∧ scope = ⟨none, coreTable⟩ ∨ m.world.store.scopes[i]? = some scope := by
    intro i scope hscope
    simp only [Store.pushCore, Array.getElem?_push] at hscope
    split at hscope
    · exact .inl (Option.some.inj hscope).symm
    · split at hscope
      · exact .inr (.inl ⟨‹_›, (Option.some.inj hscope).symm⟩)
      · exact .inr (.inr hscope)
  refine ⟨fun {i scope} hi hscope => ?_, fun {i scope b} hscope hb => ?_⟩
  · rcases hcases hscope with rfl | ⟨rfl, -⟩ | hold
    · exact Option.some_ne_none _
    · exact absurd hi (Nat.lt_irrefl _)
    · exact absurd (Store.lt_of_getElem? hold) (Nat.not_lt.mpr (Nat.le_of_lt hi))
  · rcases hcases hscope with rfl | ⟨-, rfl⟩ | hold
    · cases hb
    · exact sound_coreTable b hb
    · exact hrooted.sound hm.store hold b hb

/-- the chains of the scopes that are made for spawned work end in builtins of their own -/
theorem under_spawned (hm : m.WellFormed) (hrooted : m.world.store.Rooted) (v : Value) {i : ScopeId} (hi : m.size ≤ i)
    (hsize : i < (spawned v m).scopes.size) : (spawned v m).Under (· = m.size) 0 i := by
  have hfounded := spawned_bears (invariant_founded m.size) (founded_pushCore hm hrooted) v
  induction i using Nat.strongRecOn with
  | ind i ih =>
    by_cases hfirst : i = m.size
    · exact .of hfirst
    · have hlater : m.size < i := Nat.lt_of_le_of_ne hi (Ne.symm hfirst)
      obtain ⟨scope, hscope⟩ : ∃ scope, (spawned v m).scopes[i]? = some scope := ⟨_, Array.getElem?_eq_getElem hsize⟩
      obtain ⟨p, hp⟩ := Option.ne_none_iff_exists'.mp (hfounded.parent hlater hscope)
      have hparent : (spawned v m).parent? i = some p := by
        rw [Store.parent?, hscope]
        exact hp
      have hlt := (spawned_wellFormed v hm.store).parent? hparent
      have hle := (closed_spawned v m).parent? hi hparent
      exact .within (Nat.zero_le _) hparent (ih p hlt hle (Nat.lt_trans hlt hsize))

theorem rooted_spawned (hm : m.WellFormed) (hrooted : m.world.store.Rooted) (v : Value) : (spawned v m).Rooted := by
  have hwell := spawned_wellFormed v hm.store
  have hkept := spawned_kept v m
  have hclosed := closed_spawned v m
  intro core hsize hcore
  by_cases hold : core < m.size
  · -- builtins that were there
    rw [hkept.parent? hold] at hcore
    exact (hrooted core hold hcore).of_kept hm.store hkept hclosed
  · have hunder := under_spawned hm hrooted v (Nat.le_of_not_lt hold) hsize
    obtain rfl : core = m.size := by
      cases hunder with
      | of h => exact h
      | within _ hp _ => cases hcore.symm.trans hp
    have hfounded := spawned_bears (invariant_founded m.size) (founded_pushCore hm hrooted) v
    have hlater : ∀ {i}, (spawned v m).Under (· = m.size) 0 i → m.size ≤ i := by
      intro i hi
      induction hi with
      | of h => exact Nat.le_of_eq h.symm
      | within _ hp _ ih => exact Nat.le_trans ih (Nat.le_of_lt (hwell.parent? hp))
    refine ⟨fun i hi => hi ▸ hsize, fun hi hp => ?_, fun {i scope b} hi hscope hb => ?_⟩
    · subst hi
      cases hcore.symm.trans hp
    · refine ⟨hfounded.sound hscope hb, fun f hf => ?_⟩
      obtain ⟨name, w⟩ := b
      subst hf
      exact under_spawned hm hrooted v (hclosed.table (hlater hi) hscope hb f rfl) (hwell.function hscope hb)

end Eval

/-! ## Machines -/

/-- runs that have to do only with sound values, and only with scopes whose chains end in `core` -/
def Discipline.sound (core : ScopeId) : Discipline := .enclosed (· = core) 0 Value.Sound fun _ => True

theorem Discipline.suits_sound : Suits 0 Value.Sound fun _ => True where
  made _ hsound := hsound
  assign _ := rfl
  function := ⟨fun _ s _ => .of_forall (fun _ => trivial) (fun _ => trivial) s, fun _ => trivial⟩

/-- a chain has one end -/
theorem Store.Under.unique {s : Store} {core core' i : ScopeId} (h : s.Under (· = core) 0 i) (h' : s.Under (· = core') 0 i)
    (hcore : s.parent? core = none) (hcore' : s.parent? core' = none) : core = core' := by
  induction h with
  | of h =>
    subst h
    cases h' with
    | of h' => exact h'
    | within _ hp _ => cases hcore.symm.trans hp
  | within _ hp _ ih =>
    cases h' with
    | of h' =>
      subst h'
      cases hcore'.symm.trans hp
    | within _ hp' h' =>
      cases hp.symm.trans hp'
      exact ih h'

/-- all that the machine holds is sound, and its own builtins are in the scope `core` -/
structure Machine.Rooted (core : ScopeId) (m : Machine) : Prop where
  enclosed : m.Enclosed (· = core) 0 Value.Sound fun _ => True
  store : m.world.store.Rooted
  own : m.interpreter.core = core
  outermost : m.world.store.parent? core = none

namespace Machine.Rooted

variable {core : ScopeId} {m : Machine} {d : Deed}

theorem there (h : m.Rooted core) : core < m.size := h.enclosed.store.there core rfl

/-- a deed has to do only with scopes whose chains end in the builtins of the machine, or adds scopes for spawned work -/
theorem store_effect (h : m.Rooted core) (hd : (Discipline.sound core).Told d m) : (d.effect m).world.store.Rooted := by
  have hwell := h.enclosed.wellFormed
  have hown := Discipline.encloses_effect Discipline.suits_sound h.enclosed hd
  have hmakes := Discipline.makes_effect hd
  generalize (d.effect m).world.store = s' at hown hmakes
  intro other hsize hother
  by_cases hsame : other = core
  · subst hsame
    exact hown
  rcases hmakes with _ | ⟨hparent, hbindings⟩ | ⟨hhome, hv⟩ | ⟨v⟩
  · exact h.store other hsize hother
  · rename_i parent bindings
    have hkept := Store.kept_opened m.world.store parent bindings
    have hnew := Store.parent?_opened m.world.store parent bindings
    have hold : other < m.size := by
      refine Nat.lt_of_le_of_ne (Nat.le_of_lt_succ ?_) fun hlast => ?_
      · rwa [Eval.opened, Store.size_defineAll, Store.size_push] at hsize
      · rw [hlast] at hother
        cases hother.symm.trans hnew
    have hother' : m.world.store.parent? other = none := (hkept.parent? hold).symm.trans hother
    refine (h.store other hold hother').opened hwell.store fun hunder => absurd ?_ hsame
    have hcore : (Eval.opened parent bindings m.world.store).2.parent? core = none :=
      (hkept.parent? h.there).trans h.outermost
    exact hunder.unique (.within (Nat.zero_le _) hnew (hparent.mono fun _ => hkept.parent?)) hother hcore
  · rw [Snapshot.size_define] at hsize
    rw [Store.parent?_define] at hother
    refine (h.store other hsize hother).define hwell.store fun hunder => absurd ?_ hsame
    exact hunder.unique hhome hother h.outermost
  · exact Eval.rooted_spawned hwell h.store v other hsize hother

/-- **One deed.** -/
theorem effect (h : m.Rooted core) (hd : (Discipline.sound core).Told d m) : (d.effect m).Rooted core := by
  refine ⟨Discipline.enclosed_effect Discipline.suits_sound h.enclosed hd, h.store_effect hd, ?_, ?_⟩
  · exact (Discipline.alters_effect hd).core.trans h.own
  · exact ((d.preserves_effect m).parent h.there).trans h.outermost

/-- **Many deeds.** -/
theorem performAll {deeds : List Deed} (h : m.Rooted core) (hd : Deed.Along (Discipline.sound core).Told deeds m) :
    (performAll deeds m).Rooted core := by
  induction deeds generalizing m with
  | nil => exact h
  | cons d deeds ih => exact ih (h.effect hd.1) hd.2

theorem soundIn (h : m.Rooted core) {v : Value} (hv : v.Sound) (hin : v.In (m.world.store.Under (· = core) 0)) :
    v.SoundIn m.world.store core :=
  ⟨hv, fun f hf => Store.endsIn_of_under h.enclosed.wellFormed.store h.there h.outermost (hin f hf)⟩

theorem holdsSound (h : m.Rooted core) : m.HoldsSound := by
  have hwell := h.enclosed.wellFormed.store
  refine ⟨fun i scope hscope => ?_, fun e he v hv => ?_, ?_⟩
  · obtain ⟨root, hsize, hroot, hunder⟩ := Store.exists_under hwell (Store.lt_of_getElem? hscope)
    refine ⟨root, Store.endsIn_of_under hwell hsize hroot hunder, fun b hb => ?_⟩
    obtain ⟨hsound, hin⟩ := (h.store root hsize hroot).table hunder hscope hb
    exact ⟨hsound, fun f hf => Store.endsIn_of_under hwell hsize hroot (hin f hf)⟩
  · rw [h.own]
    obtain ⟨hsound, hin⟩ := h.enclosed.handlers e he v hv
    exact h.soundIn hsound hin
  · rw [h.own]
    exact Store.endsIn_of_under hwell h.there h.outermost h.enclosed.global

end Machine.Rooted

namespace Machine

variable {w : World}

theorem start_eq_fresh (hstore : w.store = .empty) (limit : Int) :
    (start w limit).world.store = (start .fresh limit).world.store ∧
      (start w limit).interpreter = (start .fresh limit).interpreter := by
  simp only [start, World.newInterpreter, hstore, World.fresh, and_self]

/-- a new machine has two scopes, that of the builtins and the global one -/
theorem scope_start (hstore : w.store = .empty) {limit : Int} {i : ScopeId} {scope : Scope}
    (h : (start w limit).world.store.scopes[i]? = some scope) :
    i = 0 ∧ scope = ⟨none, coreTable⟩ ∨ i = 1 ∧ scope = ⟨some 0, []⟩ := by
  rw [(start_eq_fresh hstore limit).1] at h
  rcases i with _ | _ | i
  · cases h
    exact .inl ⟨rfl, rfl⟩
  · cases h
    exact .inr ⟨rfl, rfl⟩
  · have hlt : i + 1 + 1 < 2 := Store.lt_of_getElem? h
    omega

theorem parent?_start (hstore : w.store = .empty) (limit : Int) : (start w limit).world.store.parent? 0 = none := by
  rw [(start_eq_fresh hstore limit).1]
  rfl

theorem encloses_start (hstore : w.store = .empty) (limit : Int) :
    (start w limit).world.store.Encloses (· = 0) 0 Value.Sound := by
  refine ⟨fun i hi => ?_, fun {i parent} hi hp => ?_, fun {i scope b} _ hscope hb => ?_⟩
  · subst hi
    rw [(start_eq_fresh hstore limit).1]
    exact Nat.zero_lt_two
  · subst hi
    cases (parent?_start hstore limit).symm.trans hp
  · rcases scope_start hstore hscope with ⟨-, rfl⟩ | ⟨-, rfl⟩
    · exact ⟨Eval.sound_coreTable b hb, (coreTable_plain.2 b hb).isIn _⟩
    · cases hb

theorem under_start (hstore : w.store = .empty) (limit : Int) :
    (start w limit).world.store.Under (· = 0) 0 (start w limit).interpreter.global := by
  refine .within (Nat.zero_le _) (p := 0) ?_ (.of rfl)
  rw [(start_eq_fresh hstore limit).1, (start_eq_fresh hstore limit).2]
  rfl

theorem wellFormed_start_of (hstore : w.store = .empty) (hhosts : w.hosts = #[]) (hmemory : w.memory = []) (limit : Int) :
    (start w limit).WellFormed where
  store := by
    rw [(start_eq_fresh hstore limit).1]
    exact (wellFormed_start limit).store
  core := by
    rw [(start_eq_fresh hstore limit).1, (start_eq_fresh hstore limit).2]
    exact (wellFormed_start limit).core
  global := by
    rw [(start_eq_fresh hstore limit).1, (start_eq_fresh hstore limit).2]
    exact (wellFormed_start limit).global
  handlers := by
    rw [(start_eq_fresh hstore limit).1, (start_eq_fresh hstore limit).2]
    exact (wellFormed_start limit).handlers
  hosts := by
    have hhosts' : (start w limit).world.hosts = #[] := hhosts
    rw [hhosts']
    exact fun _ h => absurd h (Array.not_mem_empty _)
  memory := by
    have hmemory' : (start w limit).world.memory = [] := hmemory
    rw [hmemory']
    exact List.forall_mem_nil _

theorem enclosed_start (hstore : w.store = .empty) (hhosts : w.hosts = #[]) (hmemory : w.memory = []) (limit : Int) :
    (start w limit).Enclosed (· = 0) 0 Value.Sound fun _ => True where
  wellFormed := wellFormed_start_of hstore hhosts hmemory limit
  size := Nat.zero_le _
  store := encloses_start hstore limit
  core := by
    rw [(start_eq_fresh hstore limit).2]
    exact .of rfl
  global := under_start hstore limit
  handlers := by
    rw [(start_eq_fresh hstore limit).2]
    exact List.forall_mem_nil _
  hosts := by
    have hhosts' : (start w limit).world.hosts = #[] := hhosts
    rw [hhosts']
    exact fun _ h => absurd h (Array.not_mem_empty _)
  memory := .inl hhosts

theorem Rooted.start (hstore : w.store = .empty) (hhosts : w.hosts = #[]) (hmemory : w.memory = []) (limit : Int) :
    (Machine.start w limit).Rooted 0 where
  enclosed := enclosed_start hstore hhosts hmemory limit
  store := by
    intro core hcore hp
    obtain ⟨scope, hscope⟩ : ∃ scope, (Machine.start w limit).world.store.scopes[core]? = some scope :=
      ⟨_, Array.getElem?_eq_getElem hcore⟩
    rcases scope_start hstore hscope with ⟨rfl, -⟩ | ⟨rfl, rfl⟩
    · exact encloses_start hstore limit
    · rw [Store.parent?, hscope] at hp
      cases hp
  own := by
    rw [(start_eq_fresh hstore limit).2]
    rfl
  outermost := parent?_start hstore limit

end Machine

/-! ## Sessions -/

/-- the operations that run source texts one after the other, each with its name -/
def Operation.sources (texts : List (Bytes × Bytes)) : List Operation := texts.map fun t => .execSource t.1 t.2

theorem Operation.eachFits_sources (texts : List (Bytes × Bytes)) (m : Machine) : EachFits m (sources texts) := by
  induction texts generalizing m with
  | nil => trivial
  | cons t texts ih => exact ⟨trivial, ih _⟩

theorem Discipline.takes_sources {core : ScopeId} (texts : List (Bytes × Bytes)) :
    ∀ op ∈ Operation.sources texts, ∀ m, (Discipline.sound core).holds m → (Discipline.sound core).Takes m op := by
  intro op hop m _
  obtain ⟨t, -, rfl⟩ := List.mem_map.mp hop
  exact fun s _ => .of_forall (fun _ => trivial) (fun _ => trivial) s

/-- **Values are sound.** A new machine, to which a host adds nothing, runs source texts one after the other. With enough
effort the run ends, and so does the run in which every task is stopped that is told of a value that is not sound or gives
one. The deeds lead to what the texts make of the machine, and after each of them all scopes and handlers hold sound values.
What the texts give is sound. And `type_of` calls a sound value an `int` only if it is a number that is a whole one. -/
theorem Machine.values_sound (w : World) (hstore : w.store = .empty) (hhosts : w.hosts = #[]) (hmemory : w.memory = [])
    (limit : Int) (texts : List (Bytes × Bytes)) :
    (∃ N deeds,
      (∀ n, N ≤ n → Operation.runEachWithin n (Operation.sources texts) (start w limit) =
        some (.ok (Operation.performEach (start w limit) (Operation.sources texts)).1, deeds)) ∧
      (∀ n, N ≤ n → Operation.runEachBy ((Discipline.sound 0).watchWithin n) (Operation.sources texts) (start w limit) =
        some (.ok (Operation.performEach (start w limit) (Operation.sources texts)).1, deeds)) ∧
      performAll deeds (start w limit) = (Operation.performEach (start w limit) (Operation.sources texts)).2 ∧
      ∀ before after, deeds = before ++ after → (performAll before (start w limit)).HoldsSound) ∧
    (∀ v, .ok v ∈ (Operation.performEach (start w limit) (Operation.sources texts)).1 →
      v.SoundIn (Operation.performEach (start w limit) (Operation.sources texts)).2.world.store 0) ∧
    ∀ (v : Value) (call : Call) (m : Machine), v.Sound → (Primitive.run call .typeOf [v] m).1 = .ok (.string (text "int")) →
      ∃ n i, v = .number n ∧ Decimal.integer? n.value = some i := by
  have hrooted := Machine.Rooted.start hstore hhosts hmemory limit
  have L : (Discipline.sound 0).Laws := Discipline.enclosed_laws Discipline.suits_sound
  have hsettles := Operation.settles_each (c := ⟨limit, []⟩) (Operation.sources texts)
    ⟨hrooted.enclosed.wellFormed, rfl, rfl⟩ (Operation.eachFits_sources texts (start w limit))
  obtain ⟨N, deeds, hends, hdeeds, -⟩ := hsettles.ends
  have hdeeds : performAll deeds (start w limit) = (Operation.performEach (start w limit) (Operation.sources texts)).2 :=
    hdeeds
  have hkeeps : ∀ n, (Discipline.sound 0).Keeps _ _ _ (start w limit) := fun n =>
    Discipline.keeps_each L (Discipline.keeps_runWithin L n) hrooted.enclosed (Discipline.takes_sources texts)
  have hrun : ∀ n, N ≤ n → Operation.runEachBy (Eval.Task.runWithin n) (Operation.sources texts) (start w limit) =
      some (.ok (Operation.performEach (start w limit) (Operation.sources texts)).1, deeds) := by
    intro n hn
    rw [← Operation.runEachWithin_eq]
    exact hends n hn
  have htold := (hkeeps N).told (hrun N (Nat.le_refl N))
  refine ⟨⟨N, deeds, hends, fun n hn => ?_, hdeeds, fun before after hsplit => ?_⟩, fun v hv => ?_, ?_⟩
  · rw [(hkeeps n).same, hrun n hn]
  · rw [hsplit, Deed.along_append] at htold
    exact (hrooted.performAll htold.1).holdsSound
  · have hreturns := (hkeeps N).gives (hrun N (Nat.le_refl N)) _ hv v rfl
    rw [← hdeeds]
    exact (hrooted.performAll htold).soundIn hreturns.1 hreturns.2
  · intro v call m hv htype
    exact hv.integer (Value.string.inj (Except.ok.inj htype))

/-- a number that grows beyond all floats, in a function that is also a handler and spawned work -/
def overflowing : List (Bytes × Bytes) := [
  (text "one", text
    "fn square(n) \x7b return n * n; \x7d\nlet big = square(square(square(square(square(square(square(square(10))))))));"),
  (text "two", text "fn again() \x7b return square(square(big)); \x7d\nregister_event(\"tick\", again); spawn(again);"),
  (text "three", text "type_of(again());")]

/-- what overflows is no `int` -/
theorem Machine.values_sound_overflowing :
    World.fresh.store = .empty ∧ World.fresh.hosts = #[] ∧ World.fresh.memory = [] ∧
    ((Operation.performEach (start .fresh 100) (Operation.sources overflowing)).1.getLast?.bind Except.toOption).map
      Value.shown = some (text "float") ∧
    ∃ deeds, performAll deeds (start .fresh 100) =
        (Operation.performEach (start .fresh 100) (Operation.sources overflowing)).2 ∧
      ∀ before after, deeds = before ++ after → (performAll before (start .fresh 100)).HoldsSound := by
  obtain ⟨N, deeds, -, -, hdeeds, hsound⟩ := (values_sound .fresh rfl rfl rfl 100 overflowing).1
  exact ⟨rfl, rfl, rfl, by decide +kernel, deeds, hdeeds, hsound⟩

end Ouroboros
