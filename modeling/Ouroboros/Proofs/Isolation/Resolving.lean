/-
The names that spawned work sees.

Spawned work sees a copy of the scopes that its function sees, up to the scope of the builtins, and behind the copy the
builtins of its own interpreter. So a name stands for the same as before where a scope in front of the builtins binds it:
for an equal value, or for a function with the same parameters and the same body whose scope stands for the old one, and
again for each name seen from there (`Snapshot.Copied.lookup?`). Any other name is looked for among the builtins of the
language: what a host has added to the builtins, or put in their place, the work does not see.

`Operation.spawn_resolves` says it of every function spawned in what a host does, one operation after the other, with
builtins added in between; and that a name is seen alike exactly if it is bound in front of the builtins, or was seen as
the language has it. `Operation.spawn_overlooks` has a function whose name for a host's builtin the work does not know.
-/
import Ouroboros.Proofs.Execution.Sequence
import Ouroboros.Proofs.Execution.Soundness
import Ouroboros.Proofs.Isolation.Twins
import Ouroboros.Proofs.Snapshot.Sharing

namespace Ouroboros

/-! ## Names in front of the builtins -/

namespace Store

variable {s s' : Store} {core i : ScopeId}

/-- the value of a name as seen from a scope, when a scope in front of `core` binds it -/
def inFront? (s : Store) (core i : ScopeId) (name : Bytes) : Option Value :=
  (s.inside i core).findSome? fun e => s.bound? e name

/-- a name that the scope does not bind is looked up in the scope around it -/
theorem lookup?_eq (hs : s.WellFormed) (i : ScopeId) (name : Bytes) :
    s.lookup? i name = (s.bound? i name).or ((s.parent? i).bind fun p => s.lookup? p name) := by
  rw [lookup?, owner?_eq hs.ordered]
  cases hbound : s.bound? i name with
  | some v => exact hbound
  | none => cases s.parent? i <;> rfl

theorem inFront?_core (s : Store) (core : ScopeId) (name : Bytes) : s.inFront? core core name = none := by
  rw [inFront?, inside, chain, chainWithin, List.takeWhile_cons_of_neg (by simp)]
  rfl

theorem inFront?_eq (hs : s.WellFormed) (hi : i ≠ core) (name : Bytes) :
    s.inFront? core i name = (s.bound? i name).or ((s.parent? i).bind fun p => s.inFront? core p name) := by
  rw [inFront?, inside, chain_eq hs, List.takeWhile_cons_of_pos (by simpa using hi), List.findSome?_cons]
  cases s.bound? i name with
  | some v => rfl
  | none => cases s.parent? i <;> rfl

/-- what is bound in front of `core` hides all that is bound further out -/
theorem lookup?_of_inFront? (hs : s.WellFormed) {name : Bytes} {v : Value} (h : s.inFront? core i name = some v) :
    s.lookup? i name = some v := by
  induction i using Nat.strongRecOn with
  | ind i ih =>
    by_cases hi : i = core
    · rw [hi, inFront?_core] at h
      cases h
    · rw [inFront?_eq hs hi] at h
      rw [lookup?_eq hs]
      cases hbound : s.bound? i name with
      | some w => rwa [hbound] at h
      | none =>
        rw [hbound, Option.none_or] at h
        obtain ⟨p, hp, hfront⟩ := Option.bind_eq_some_iff.mp h
        rw [Option.none_or, hp, Option.bind_some]
        exact ih p (hs.parent? hp) hfront

/-- scopes that come later change nothing in front of `core` -/
theorem Kept.inFront? (hkept : s.Kept s') (hs : s.WellFormed) (hs' : s'.WellFormed) (hi : i < s.scopes.size)
    (core : ScopeId) (name : Bytes) : s'.inFront? core i name = s.inFront? core i name := by
  induction i using Nat.strongRecOn with
  | ind i ih =>
    by_cases hcore : i = core
    · rw [hcore, inFront?_core, inFront?_core]
    · rw [inFront?_eq hs hcore, inFront?_eq hs' hcore, hkept.bound? hi, hkept.parent? hi]
      cases hp : s.parent? i with
      | none => rfl
      | some p =>
        have hlt := hs.parent? hp
        rw [Option.bind_some, Option.bind_some, ih p hlt (Nat.lt_trans hlt hi)]

end Store

/-! ## Names and copies -/

theorem or_rel {α β : Type} {r : α → β → Prop} {a b : Option α} {a' b' : Option β} (ha : Option.Rel r a a')
    (hb : Option.Rel r b b') : Option.Rel r (a.or b) (a'.or b') := by
  cases ha with
  | none => exact hb
  | some h => exact .some h

/-- the same table without functions, seen on both sides -/
theorem lookup_plain {P : Pairing} {t : Table} (ht : ∀ b ∈ t, b.2.IsPlain) (name : Bytes) :
    Option.Rel (Value.Paired P) (t.lookup name) (t.lookup name) :=
  lookup_paired (List.forall₂_same.2 fun b hb => ⟨rfl, .plain (ht b hb)⟩) name

namespace Snapshot

/-- a scope that is reached is one of those that were there -/
theorem lt_of_reaches {s s' : Store} (hs : s.WellFormed) (hkept : s.Kept s') {stop i j : ScopeId}
    (hi : i < s.scopes.size) (h : Reaches s' stop i j) : j < s.scopes.size := by
  induction h with
  | refl => exact hi
  | tail _ hstep ih =>
    cases hstep with
    | around hscope hp =>
      rw [hkept.scopes _ ih] at hscope
      exact Nat.lt_trans (hs.parent hscope hp) ih
    | bound hscope hf =>
      rw [hkept.scopes _ ih] at hscope
      exact hs.function hscope hf

theorem Copying.StandsFor.paired {c : Copying} {v v' : Value} (h : c.StandsFor v v') : v.Paired c.Stands v' := by
  cases h with
  | function h => exact .function _ _ h
  | other h => exact .plain h

theorem Copying.Binds.paired {c : Copying} {t t' : Table} (h : c.Binds t t') : BindingsPaired c.Stands t t' :=
  h.imp fun _ _ hb => ⟨hb.1, hb.2.paired⟩

variable {s : Store} {stop base id i t : ScopeId} {order : CopyOrder} {r : ScopeId × Copying}
  {new : List (ScopeId × ScopeId)} {builtins : Table}

/-- in the place of `stop` the builtins are seen, and nothing else -/
theorem Copied.lookup?_base (h : Copied s ⟨stop, base, order, s, []⟩ id r new) (hafter : r.2.store.WellFormed)
    (hbase : s.scopes[base]? = some ⟨none, builtins⟩) (name : Bytes) :
    r.2.store.lookup? base name = builtins.lookup name := by
  have hscope : r.2.store.scopes[base]? = some ⟨none, builtins⟩ := by
    rw [h.kept base (Array.getElem?_eq_some_iff.mp hbase).1]
    exact hbase
  rw [Store.lookup?_eq hafter, Store.bound?, Store.parent?, hscope]
  exact Option.or_none

/-- **Names in copies.** From what stands for a scope a name is seen as from the scope when it is bound in front of `stop`,
and otherwise as among the builtins. -/
theorem Copied.lookup? (h : Copied s ⟨stop, base, order, s, []⟩ id r new) (hs : s.WellFormed) (hafter : r.2.store.WellFormed)
    (hbase : s.scopes[base]? = some ⟨none, builtins⟩) (hplain : ∀ b ∈ builtins, b.2.IsPlain)
    (hstands : r.2.Stands i t) (name : Bytes) :
    Option.Rel (Value.Paired r.2.Stands) ((s.inFront? stop i name).or (builtins.lookup name))
      (r.2.store.lookup? t name) := by
  have hbuiltins : Option.Rel (Value.Paired r.2.Stands) (builtins.lookup name) (r.2.store.lookup? base name) := by
    rw [h.lookup?_base hafter hbase]
    exact lookup_plain hplain name
  -- outwards, the numbers of scopes decrease
  induction i using Nat.strongRecOn generalizing t with
  | ind i ih =>
    by_cases hi : i = stop
    · obtain ⟨-, rfl⟩ | ⟨hne, -⟩ := hstands
      · rw [hi, Store.inFront?_core, h.grows.base]
        exact hbuiltins
      · rw [h.grows.stop] at hne
        exact absurd hi hne
    · obtain ⟨-, scope, parent, source, table, hscope, hcopy, haround, hperm, hbinds⟩ :=
        h.faithful _ (h.mem_of_stands rfl hi hstands)
      have hbound : Option.Rel (Value.Paired r.2.Stands) (s.bound? i name) (r.2.store.bound? t name) := by
        rw [Store.bound?, Store.bound?, hscope, hcopy]
        have hsame : source.lookup name = scope.table.lookup name := lookup_perm hperm.symm (hs.names hscope) name
        change Option.Rel _ (scope.table.lookup name) _
        rw [← hsame]
        exact lookup_paired hbinds.paired name
      rw [Store.inFront?_eq hs hi, Store.lookup?_eq hafter, Option.or_assoc]
      refine or_rel hbound ?_
      have hparent : r.2.store.parent? t = some parent := by
        rw [Store.parent?, hcopy]
        rfl
      rw [hparent, Option.bind_some, Store.parent?, hscope, Option.bind_some]
      cases hp : scope.parent with
      | none =>
        rw [hp] at haround
        obtain rfl : parent = r.2.base := haround
        rw [h.grows.base]
        exact hbuiltins
      | some p =>
        rw [hp] at haround
        exact ih p (hs.parent hscope hp) haround

end Snapshot

/-! ## Names of spawned work -/

open Eval in
/-- the spawned function sees every name as the function did: both see none, or the same, up to what stands for scopes -/
def SeesAlike (f : Closure) (m m' : Machine) : Prop := ∀ name,
  Option.Rel (Value.Paired (copied f m).2.Stands) (m.world.store.lookup? f.scope name)
    (m'.world.store.lookup? (copied f m).1 name)

open Eval in
/-- what spawning the function `f` on the machine `m` comes to, when `m'` is the machine after it, and how names are seen
from what stands for scopes -/
structure Resolves (f : Closure) (m m' : Machine) : Prop extends Spawned f m m' where
  stands : (copied f m).2.Stands f.scope (copied f m).1
  /-- a name stands for what it stood for in front of the builtins, or else for the builtin of the language -/
  names : ∀ {i t : ScopeId}, (copied f m).2.Stands i t → ∀ name, Option.Rel (Value.Paired (copied f m).2.Stands)
    ((m.world.store.inFront? m.interpreter.core i name).or (coreTable.lookup name)) (m'.world.store.lookup? t name)
  /-- so it stands for the same exactly if it is bound in front of the builtins, or was seen as the language has it -/
  alike : ∀ {i t : ScopeId}, (copied f m).2.Stands i t → ∀ name,
    (Option.Rel (Value.Paired (copied f m).2.Stands) (m.world.store.lookup? i name) (m'.world.store.lookup? t name) ↔
      (m.world.store.inFront? m.interpreter.core i name).isSome = true ∨
        m.world.store.lookup? i name = coreTable.lookup name)

theorem Resolves.seesAlike_iff {f : Closure} {m m' : Machine} (h : Resolves f m m') : SeesAlike f m m' ↔
    ∀ name, (m.world.store.inFront? m.interpreter.core f.scope name).isSome = true ∨
      m.world.store.lookup? f.scope name = coreTable.lookup name :=
  forall_congr' (h.alike h.stands)

/-- what agrees with a value that is no function is the same -/
theorem eq_of_rel_plain {P : Pairing} {o o' : Option Value} (h : Option.Rel (Value.Paired P) o o')
    (hplain : (∀ v, o = some v → v.IsPlain) ∨ ∀ v, o' = some v → v.IsPlain) : o' = o := by
  cases h with
  | none => rfl
  | some hv =>
    cases hv with
    | plain => rfl
    | function sig body hi =>
      rcases hplain with hplain | hplain
      · exact absurd rfl (hplain _ rfl _)
      · exact absurd rfl (hplain _ rfl _)

namespace Eval

variable {f : Closure} {m : Machine}

theorem copying_kept (m : Machine) : m.world.store.Kept (copying m).store :=
  newInterpreter_kept m.world m.interpreter.limit (false :: m.interpreter.path)

theorem lookup_copied (hm : m.WellFormed) (hscope : f.scope < m.size) {i t : ScopeId}
    (h : (copied f m).2.Stands i t) (name : Bytes) : Option.Rel (Value.Paired (copied f m).2.Stands)
      ((m.world.store.inFront? m.interpreter.core i name).or (coreTable.lookup name))
      ((copied f m).2.store.lookup? t name) := by
  have hkept := copying_kept m
  have hwell : (copying m).store.WellFormed := hm.store.pushCore
  have hlt : f.scope < (copying m).store.scopes.size := Nat.lt_of_lt_of_le hscope hkept.size
  obtain ⟨new, hcopied⟩ := Snapshot.exists_copied hwell m.interpreter.core m.size (copying m).order hlt
  have hnames := hcopied.lookup? hwell (spawned_wellFormed (.function f) hm.store) (copying_builtins m) coreTable_plain.2
    h name
  have hfront : (copying m).store.inFront? m.interpreter.core i name =
      m.world.store.inFront? m.interpreter.core i name := by
    by_cases hi : i = m.interpreter.core
    · rw [hi, Store.inFront?_core, Store.inFront?_core]
    · have hreached := (hcopied.linked _ (hcopied.mem_of_stands rfl hi h)).2.reaches
      exact hkept.inFront? hm.store hwell (Snapshot.lt_of_reaches hm.store hkept hscope hreached) _ _
  rw [← hfront]
  exact hnames

theorem resolves_effect (hm : m.WellFormed) (hf : f.sig.params = []) (hscope : f.scope < m.size) :
    Resolves f m ((Deed.builtin .spawn [.function f]).effect m) := by
  have hspawned := spawned_effect hm hf hscope
  have hstands : (copied f m).2.Stands f.scope (copied f m).1 := by
    have hwell : (copying m).store.WellFormed := hm.store.pushCore
    obtain ⟨new, h⟩ := Snapshot.exists_copied hwell m.interpreter.core m.size (copying m).order
      (Nat.lt_of_lt_of_le hscope (copying_kept m).size)
    exact h.stands
  refine ⟨hspawned, hstands, fun h name => ?_, fun {i t} h name => ?_⟩
  · rw [hspawned.store]
    exact lookup_copied hm hscope h name
  · rw [hspawned.store]
    have hnames := lookup_copied hm hscope h name
    cases hfront : m.world.store.inFront? m.interpreter.core i name with
    | some v =>
      rw [hfront, Option.some_or] at hnames
      rw [Store.lookup?_of_inFront? hm.store hfront]
      exact iff_of_true hnames (.inl rfl)
    | none =>
      rw [hfront, Option.none_or] at hnames
      rw [eq_of_rel_plain hnames (.inl fun _ => plain_of_lookup)]
      constructor
      · intro halike
        exact .inr (eq_of_rel_plain halike (.inr fun _ => plain_of_lookup)).symm
      · rintro (hfront | hsame)
        · cases hfront
        · rw [hsame]
          exact lookup_plain coreTable_plain.2 name

end Eval

/-! ## Names in sessions -/

/-- the machines to which a host comes from `m₀`, step by step: it runs a program or a source text, calls a function or adds
a builtin -/
inductive Machine.Reached (m₀ : Machine) : Machine → Prop where
  | start : Reached m₀ m₀
  | operation {m : Machine} (h : Reached m₀ m) (op : Operation) (hop : op.Fits m.size) : Reached m₀ (op.perform m).2
  | register {m : Machine} (h : Reached m₀ m) (name : Bytes) (arity : Option Nat) (operation : HostOperation)
    (hoperation : operation.Within m.size) : Reached m₀ (m.register name arity operation)

theorem Machine.Reached.wellFormed {m₀ m : Machine} (h : m₀.Reached m) (hm₀ : m₀.WellFormed) : m.WellFormed := by
  induction h with
  | start => exact hm₀
  | operation _ op hop ih =>
    obtain ⟨-, -, -, -, hwell⟩ := op.exists_effort ih hop
    exact hwell
  | register _ name arity operation hoperation ih => exact ih.register name arity hoperation

namespace Operation

open Eval

/-- **Names of spawned work.** On every machine to which a host comes, whatever builtins it has added or put in the place of
others, an operation comes to an end. Wherever it spawns a function without parameters, the names that are seen from what
stands for a scope are those that were seen from the scope in front of the builtins, and otherwise the builtins of the
language; so a name is seen alike exactly if it is bound in front of the builtins, or was seen as the language has it
(`Resolves`), and the work sees every name as the function did exactly if this is so of all names. -/
theorem spawn_resolves {m₀ m : Machine} (hm₀ : m₀.WellFormed) (h : m₀.Reached m) (op : Operation) (hop : op.Fits m.size) :
    ∃ N deeds, (∀ n, N ≤ n → op.runWithin n m = some (.ok (op.perform m).1, deeds)) ∧
      performAll deeds m = (op.perform m).2 ∧
      ∀ before f behind, deeds = before ++ .builtin .spawn [.function f] :: behind → f.sig.params = [] →
        let start := performAll before m
        let done := performAll (before ++ [.builtin .spawn [.function f]]) m
        Resolves f start done ∧ (SeesAlike f start done ↔
          ∀ name, (start.world.store.inFront? start.interpreter.core f.scope name).isSome = true ∨
            start.world.store.lookup? f.scope name = coreTable.lookup name) := by
  have hm := h.wellFormed hm₀
  obtain ⟨N, deeds, hends, hdeeds, hfit⟩ := (settles_step op hop (c := ⟨m.interpreter.limit, m.interpreter.frames⟩) m
    ⟨hm, rfl, rfl⟩ (Nat.le_refl _)).ends
  rw [op.step_apply m] at hends hdeeds
  refine ⟨N, deeds, hends, hdeeds, ?_⟩
  rintro before f behind rfl hf
  rw [Deed.allFit_append] at hfit
  obtain ⟨hbefore, hspawn, -⟩ := hfit
  have hstart := Deed.wellFormed_performAll hm hbefore
  have hresolves := resolves_effect hstart hf (hspawn _ (List.mem_singleton_self _) f rfl)
  rw [performAll_append]
  exact ⟨hresolves, hresolves.seesAlike_iff⟩

/-- a machine on which the host has put a builtin of its own in the place of `print` -/
def muted : Machine := (Machine.start .fresh 10).register (text "print") none fun _ => .answer .unit

theorem runWithin_spawning (n : Nat) : (exec spawning none).runWithin (n + 12) muted =
    some (.ok (.ok .unit), beforeSpawning ++ .builtin .spawn [.function worker] :: behindSpawning) := rfl

/-- the work sees the `x` of the function, and the `print` of the language -/
theorem spawn_resolves_muted :
    let start := performAll beforeSpawning muted
    let done := performAll (beforeSpawning ++ [.builtin .spawn [.function worker]]) muted
    (Machine.start .fresh 10).WellFormed ∧ (Machine.start .fresh 10).Reached muted ∧
    (exec spawning none).Fits muted.size ∧ worker.sig.params = [] ∧ Resolves worker start done ∧
    (copied worker start).1 = 4 ∧ done.world.store.lookup? 4 (text "x") = some (.string (text "old")) ∧
    start.world.store.lookup? 1 (text "print") = some (.builtin ⟨text "print", none, .host 0⟩) ∧
    done.world.store.lookup? 4 (text "print") = some (.builtin Primitive.print.builtin) := by
  have hreached : (Machine.start .fresh 10).Reached muted :=
    .register .start _ _ _ fun n _ _ _ => Value.within_unit n
  obtain ⟨N, deeds, hends, -, hspawns⟩ :=
    spawn_resolves (Machine.wellFormed_start 10) hreached (exec spawning none) nofun
  have hdeeds : deeds = beforeSpawning ++ .builtin .spawn [.function worker] :: behindSpawning := by
    have hsame := (hends (N + 12) (Nat.le_add_right N 12)).symm.trans (runWithin_spawning N)
    exact (Prod.mk.inj (Option.some.inj hsame)).2
  exact ⟨Machine.wellFormed_start 10, hreached, nofun, rfl, (hspawns _ worker _ hdeeds rfl).1, rfl, rfl, rfl, rfl⟩

/-- a machine with a builtin of the host -/
def probed : Machine := (Machine.start .fresh 10).register (text "probe") (some 0) fun _ => .answer (.string (text "seen"))

/-- a function that prints what the host's builtin gives, declared in the scope with the number 1 -/
def prober : Closure :=
  ⟨⟨text "f", [], none, false, false⟩, [.expr .unknown (.call .unknown (.ident .unknown (text "print"))
    [.call .unknown (.ident .unknown (text "probe")) []])], 1⟩

/-- a program that declares the function and spawns it -/
def probing : Program where
  stmts := [.fnDecl .unknown prober.sig .unknown prober.body,
    .expr .unknown (.call .unknown (.ident .unknown (text "spawn")) [.ident .unknown (text "f")])]
  errors := []

/-- what it does up to the spawning -/
def beforeProbing : List Deed :=
  [.declare 1 (.function prober.sig prober.body), .trace (text "spawn") .aboutToCall,
    .trace (text "spawn") .argsEvaluated, .enter ⟨text "spawn", .unknown⟩, .trace (text "spawn") .bodyExecuting]

/-- the function sees the host's builtin, and the work does not know its name -/
theorem spawn_overlooks :
    let start := performAll beforeProbing probed
    let done := performAll (beforeProbing ++ [.builtin .spawn [.function prober]]) probed
    (Machine.start .fresh 10).Reached probed ∧ (exec probing none).Fits probed.size ∧
    (∃ behind, ∀ n, (exec probing none).runWithin (n + 12) probed =
      some (.ok (.ok .unit), beforeProbing ++ .builtin .spawn [.function prober] :: behind)) ∧
    start.world.store.lookup? prober.scope (text "probe") = some (.builtin ⟨text "probe", some 0, .host 0⟩) ∧
    done.world.store.lookup? (copied prober start).1 (text "probe") = none ∧ ¬SeesAlike prober start done := by
  intro start done
  have hseen : start.world.store.lookup? prober.scope (text "probe") =
      some (.builtin ⟨text "probe", some 0, .host 0⟩) := rfl
  have hlost : done.world.store.lookup? (copied prober start).1 (text "probe") = none := rfl
  have hreached : (Machine.start .fresh 10).Reached probed := .register .start _ _ _ fun _ _ _ _ => nofun
  refine ⟨hreached, nofun, ⟨[.leave, .trace (text "spawn") .returnSignal,
    .trace (text "spawn") .completed, .moveGlobal 1], fun n => rfl⟩, hseen, hlost, fun halike => ?_⟩
  have hprobe := halike (text "probe")
  rw [hseen, hlost] at hprobe
  cases hprobe

end Operation

end Ouroboros
