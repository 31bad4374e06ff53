/-
The work that waits.

Work waits exactly when a call of `spawn` has left it, and in the order of these calls (`Deed.steady_performAll`). While it
waits it has a region of the store for itself: the scopes that were made for it, to which nothing else refers
(`Machine.Parted`). Whatever is done by the interpreter that runs keeps it so: deeds do not touch the regions of the work
that waits, and each new piece of work gets a region of its own (`Machine.Parted.performAll`).

Deeds of builtins that neither read input, nor have to do with time, the web or graphics, leave the outside as it is, as
long as writing does not fail.
-/
import Ouroboros.Proofs.Execution.Sequence
import Ouroboros.Proofs.Isolation.Twins

namespace Ouroboros

/-! ## Waiting work and the outside -/

namespace Primitive

open Eval Deed

/-- whether the builtin reads no input and has nothing to do with time, the web and graphics -/
def isCalm : Primitive → Bool
  | .getInput | .clock | .sleep | .setTimeout | .httpGet => false
  | .graphicsInit | .createWindow | .clear | .swapBuffers | .graphicsShutdown => false
  | .print | .len | .stringLength | .toString | .stringConcat | .typeOf | .isAsync | .isGpu | .spawn | .registerEvent
  | .triggerEvent => true

/-- `spawn` refuses the value, finds that no more work is taken, or leaves the work -/
theorem run_spawn_cases (v : Value) (m : Machine) :
    (∃ fault, spawnFault v = some fault ∧ run idle .spawn [v] m = (.error ⟨fault, .unknown, [], false⟩, m)) ∨
    (spawnFault v = none ∧ m.world.closed = true ∧
      run idle .spawn [v] m = (.error ⟨.spawnClosed, .unknown, [], false⟩, (m.withStore (spawned v m)).advance)) ∨
    (spawnFault v = none ∧ m.world.closed = false ∧ run idle .spawn [v] m = (.ok .unit,
      (log (fun _ => ⟨text "spawn scheduled", []⟩) ((m.withStore (spawned v m)).advance.enqueue (jobFor v m))).2)) := by
  rw [run_spawn_eq]
  cases spawnFault v with
  | some fault => exact .inl ⟨fault, rfl, rfl⟩
  | none =>
    right
    cases hclosed : m.world.closed with
    | true =>
      refine .inl ⟨rfl, rfl, ?_⟩
      change (Eval.spawn v >>= fun _ => pure Value.unit : Eval Value) m = _
      rw [Action.bind_apply, spawn_closed v hclosed]
      rfl
    | false =>
      refine .inr ⟨rfl, rfl, ?_⟩
      change (Eval.spawn v >>= fun _ => pure Value.unit : Eval Value) m = _
      rw [Action.bind_apply, spawn_open v hclosed]
      rfl

end Primitive

/-- the pieces of work `js` came to those that wait, what was done to the outside stays on record, more work is taken as
before, and the outside, if the change was calm and writing does not fail, is as it was -/
structure Machine.Steady (calm : Prop) (js : List Job) (m m' : Machine) : Prop where
  jobs : m'.world.jobs = m.world.jobs ++ js
  record : ∃ es, m'.world.record = m.world.record ++ es
  closed : m'.world.closed = m.world.closed
  outside : calm → m.world.sink = none → m'.outside = m.outside

namespace Machine.Steady

variable {calm : Prop} {js js' : List Job} {m m' m'' : Machine}

/-- no more work, and nothing done to the outside -/
theorem same (hjobs : m'.world.jobs = m.world.jobs) (hrecord : m'.world.record = m.world.record)
    (houtside : m'.outside = m.outside) : Steady calm [] m m' := by
  refine ⟨by rw [hjobs, List.append_nil], ⟨#[], by rw [hrecord, Array.append_empty]⟩, ?_, fun _ _ => houtside⟩
  exact outside_congr World.closed (fun _ => rfl) houtside

theorem trans (h : Steady calm js m m') (h' : Steady calm js' m' m'') : Steady calm (js ++ js') m m'' := by
  obtain ⟨es, hrecord⟩ := h.record
  obtain ⟨es', hrecord'⟩ := h'.record
  refine ⟨?_, ⟨es ++ es', ?_⟩, h'.closed.trans h.closed, fun hcalm hsink => ?_⟩
  · rw [h'.jobs, h.jobs, List.append_assoc]
  · rw [hrecord', hrecord, Array.append_assoc]
  · have hsame := h.outside hcalm hsink
    have hsink' : m'.world.sink = m.world.sink := outside_congr (fun w => w.sink) (fun _ => rfl) hsame
    exact (h'.outside hcalm (hsink'.trans hsink)).trans hsame

theorem mono {calm' : Prop} (h : Steady calm js m m') (hcalm : calm' → calm) : Steady calm' js m m' :=
  ⟨h.jobs, h.record, h.closed, fun hcalm' => h.outside (hcalm hcalm')⟩

end Machine.Steady

namespace Eval

theorem steady_perform (calm : Prop) (e : Effect) (m : Machine) : Machine.Steady calm [] m (perform e m).2 :=
  ⟨(List.append_nil _).symm, ⟨#[e], Array.push_eq_append⟩, rfl, fun _ _ => rfl⟩

theorem steady_log (calm : Prop) (entry : Machine → LogEntry) (m : Machine) :
    Machine.Steady calm [] m (log entry m).2 := by
  rw [log_apply]
  split
  · exact steady_perform calm _ m
  · exact .same rfl rfl rfl

end Eval

namespace Deed

open Eval

/-- whether the deed is that of no builtin, or of a calm one -/
def isCalm : Deed → Bool
  | .builtin p _ => p.isCalm
  | _ => true

/-- the work that the deed leaves waiting: that of a call of `spawn` that does not fail -/
def accepted : Deed → Machine → Option Job
  | .builtin .spawn [v], m =>
    match (Primitive.run idle .spawn [v] m).1 with
    | .ok _ => some (jobFor v m)
    | .error _ => none
  | _, _ => none

theorem accepted_of_length_ne {p : Primitive} {args : List Value} {n : Nat} {m : Machine} (harity : p.arity = some n)
    (hargs : args.length ≠ n) : (builtin p args).accepted m = none := by
  unfold accepted
  split
  next heq =>
    cases heq
    cases harity
    exact absurd rfl hargs
  · rfl

/-- builtins that have to do with the outside only -/
theorem steady_outward {p : Primitive} (hp : p.isOutward = true) (args : List Value) (m : Machine) :
    Machine.Steady (p.isCalm = true) [] m (p.run idle args m).2 := by
  have hargs : List.Forall₂ Value.Resembles args args := List.forall₂_same.2 fun v _ => .refl v
  obtain ⟨r, o, es, hrun, -, hclosed⟩ := Primitive.outward_run hp hargs m m rfl
  refine ⟨?_, ⟨es, by rw [hrun, Machine.record_proceed]⟩, by rw [hrun]; exact hclosed, fun hcalm hsink => ?_⟩
  · rw [hrun, Machine.jobs_proceed, List.append_nil]
  cases p.given args with
  | wrong harity hargs =>
    rw [Primitive.run_of_length_ne harity hargs]
    rfl
  | print =>
    simp only [Primitive.run, writeOut, Action.bind_apply, Action.asks, hsink]
    rfl
  | len v | stringLength v | isAsync v | isGpu v => cases v <;> rfl
  | toString | typeOf => rfl
  | stringConcat a b =>
    rcases Primitive.run_stringConcat a b with ⟨t, u, -, -, hrun⟩ | ⟨-, hrun⟩ <;> rw [hrun] <;> rfl
  | spawn | registerEvent | triggerEvent => cases hp
  | getInput | clock | sleep | setTimeout | httpGet | graphicsInit | createWindow | clear | swapBuffers
  | graphicsShutdown => cases hcalm

theorem steady_builtin (p : Primitive) (args : List Value) (m : Machine) :
    Machine.Steady (p.isCalm = true) ((builtin p args).accepted m).toList m (p.run idle args m).2 := by
  by_cases hp : p.isOutward = true
  · have hnone : (builtin p args).accepted m = none := by
      cases p <;> first | rfl | cases hp
    rw [hnone]
    exact steady_outward hp args m
  cases p.given args with
  | wrong harity hargs =>
    rw [accepted_of_length_ne harity hargs, Primitive.run_of_length_ne harity hargs]
    exact .same rfl rfl rfl
  | spawn v =>
    rw [accepted]
    rcases Primitive.run_spawn_cases v m with ⟨fault, -, hrun⟩ | ⟨-, -, hrun⟩ | ⟨-, -, hrun⟩
    · rw [hrun]
      exact .same rfl rfl rfl
    · rw [hrun]
      exact .same rfl rfl rfl
    · rw [hrun]
      have henqueue : Machine.Steady (Primitive.isCalm .spawn = true) [jobFor v m] m
          ((m.withStore (spawned v m)).advance.enqueue (jobFor v m)) :=
        ⟨rfl, ⟨#[], Array.append_empty.symm⟩, rfl, fun _ _ => rfl⟩
      exact henqueue.trans (steady_log _ (fun _ => ⟨text "spawn scheduled", []⟩) _)
  | registerEvent event v =>
    rcases Primitive.run_registerEvent event v with ⟨e, hrun⟩ | ⟨name, hrun⟩
    · rw [hrun]
      exact .same rfl rfl rfl
    · rw [hrun]
      have hlog := steady_log (Primitive.isCalm .registerEvent = true)
        (fun m => ⟨text "event registered",
          [(text "event", name), (text "handlers", Bytes.ofNat (Primitive.handlersOf m.interpreter name).length)]⟩)
        { m with interpreter := { m.interpreter with handlers := Primitive.addHandler name v m.interpreter.handlers } }
      exact ⟨hlog.jobs, hlog.record, hlog.closed, hlog.outside⟩
  | triggerEvent event =>
    cases event with
    | string name =>
      simp only [Primitive.run, Primitive.callAll_idle]
      exact .same rfl rfl rfl
    | unit | number | bool | function | builtin | range | unknown => exact .same rfl rfl rfl
  | _ => exact absurd rfl hp

/-- **One deed and the work that waits.** -/
theorem steady_effect (d : Deed) (m : Machine) :
    Machine.Steady (d.isCalm = true) (d.accepted m).toList m (d.effect m) := by
  cases d with
  | openScope =>
    rw [effect, act_openScope]
    exact .same rfl rfl rfl
  | declare =>
    rw [effect, act_declare]
    split
    · exact .same rfl rfl rfl
    · exact .same rfl rfl rfl
  | set | enter | leave | moveGlobal | remember => exact .same rfl rfl rfl
  | trace | note => exact steady_log _ _ m
  | builtin p args => exact steady_builtin p args m

/-- deeds, each with the machine on which it is done -/
def trail : List Deed → Machine → List (Deed × Machine)
  | [], _ => []
  | d :: deeds, m => (d, m) :: trail deeds (d.effect m)

theorem map_trail (deeds : List Deed) (m : Machine) : (trail deeds m).map Prod.fst = deeds := by
  induction deeds generalizing m with
  | nil => rfl
  | cons d deeds ih => rw [trail, List.map_cons, ih]

/-- the work that is left along deeds, in order -/
def taken (steps : List (Deed × Machine)) : List Job := steps.filterMap fun x => x.1.accepted x.2

theorem taken_cons (d : Deed) (m : Machine) (steps : List (Deed × Machine)) :
    taken ((d, m) :: steps) = (d.accepted m).toList ++ taken steps := by
  unfold taken
  cases h : d.accepted m with
  | none => simp [h]
  | some job => simp [h]

@[simp] theorem taken_append (steps steps' : List (Deed × Machine)) :
    taken (steps ++ steps') = taken steps ++ taken steps' := List.filterMap_append

/-- **Deeds and the work that waits.** What waits after deeds is what waited before, and what calls of `spawn` have left
among them. -/
theorem steady_performAll (deeds : List Deed) (m : Machine) :
    Machine.Steady (∀ d ∈ deeds, d.isCalm = true) (taken (trail deeds m)) m (performAll deeds m) := by
  induction deeds generalizing m with
  | nil => exact .same rfl rfl rfl
  | cons d deeds ih =>
    rw [trail, taken_cons, performAll_cons]
    have hfirst := (steady_effect d m).mono fun h : ∀ e ∈ d :: deeds, e.isCalm = true => h d List.mem_cons_self
    exact hfirst.trans ((ih _).mono fun h e he => h e (List.mem_cons_of_mem _ he))

theorem mem_trail {deeds : List Deed} {m : Machine} {x : Deed × Machine} (h : x ∈ trail deeds m) :
    ∃ before behind, deeds = before ++ x.1 :: behind ∧ x.2 = performAll before m := by
  induction deeds generalizing m with
  | nil => exact absurd h List.not_mem_nil
  | cons d deeds ih =>
    rcases List.mem_cons.mp h with rfl | h
    · exact ⟨[], deeds, rfl, rfl⟩
    · obtain ⟨before, behind, hsplit, hmachine⟩ := ih h
      exact ⟨d :: before, behind, by rw [hsplit, List.cons_append], hmachine⟩

/-- where work is left, the store is the one that spawning makes -/
theorem accepted_eq_some {d : Deed} {m : Machine} {job : Job} (h : d.accepted m = some job) :
    ∃ v, d = .builtin .spawn [v] ∧ job = jobFor v m ∧ (d.effect m).world.store = spawned v m := by
  unfold accepted at h
  split at h
  next v =>
    rcases Primitive.run_spawn_cases v m with ⟨fault, -, hrun⟩ | ⟨-, -, hrun⟩ | ⟨-, -, hrun⟩
    · rw [hrun] at h
      cases h
    · rw [hrun] at h
      cases h
    · rw [hrun] at h
      refine ⟨v, rfl, (Option.some.inj h).symm, ?_⟩
      rw [effect, act, hrun]
      exact (quiet_log (fun _ => ⟨text "spawn scheduled", []⟩) _).1
  · cases h

end Deed

/-! ## Regions of work that waits -/

/-- all scopes that do not belong to the region -/
def Region.others (B : Region) : Region := fun i => ¬B i

/-- each piece of work that waits has a region for itself; the interpreter and all other scopes refer to none of these -/
structure Machine.Parted (homes : List (Job × Region)) (m : Machine) : Prop where
  wellFormed : m.WellFormed
  confined : m.world.Confined
  jobs : m.world.jobs = homes.map Prod.fst
  housed : ∀ x ∈ homes, x.1.Housed x.2 m.world.store
  apart : ∀ x ∈ homes, m.Inside x.2.others
  disjoint : homes.Pairwise fun x y => ∀ i, x.2 i → ¬y.2 i

namespace Deed

open Eval

variable {m : Machine} {d : Deed}

/-- the work that the deed leaves, with the scopes made for it -/
def claimed (d : Deed) (m : Machine) : List (Job × Region) :=
  (d.accepted m).toList.map fun job => (job, m.since (d.effect m))

theorem map_claimed (d : Deed) (m : Machine) : (d.claimed m).map Prod.fst = (d.accepted m).toList := by
  unfold claimed
  cases d.accepted m with
  | none => rfl
  | some job => rfl

/-- the work that the deed leaves is at home in the scopes made for it, and nothing else refers to these -/
theorem claimed_apart (hm : m.WellFormed) (hhost : m.world.Confined) (hfits : d.Fits m.size) {x : Job × Region}
    (hx : x ∈ d.claimed m) :
    x.1.Housed x.2 (d.effect m).world.store ∧ (d.effect m).Inside x.2.others ∧ ∀ i, x.2 i → m.size ≤ i := by
  obtain ⟨job, hjob, rfl⟩ := List.mem_map.mp hx
  obtain ⟨v, rfl, rfl, hstore⟩ := accepted_eq_some (Option.mem_toList.mp hjob)
  refine ⟨?_, ?_, fun i hi => hi.1⟩
  · have hhoused := jobFor_housed hm v
    rw [← hstore] at hhoused
    exact hhoused
  · -- all scopes that are there belong to the others, and all that the deed makes do not
    have hinside : m.Inside (Region.others (m.since ((builtin .spawn [v]).effect m))) :=
      hm.inside hhost fun i hlt hsince => Nat.not_lt.mpr hsince.1 hlt
    have hfit : AllFit ([] ++ [builtin .spawn [v]]) m := ⟨hfits, trivial⟩
    have hplain : ∀ d ∈ [] ++ [builtin .spawn [v]], d.KeepsPlain := List.forall_mem_singleton.mpr nofun
    have hcut := along_sorted_cut hm hfit hplain rfl
    have hin : (builtin .spawn [v]).In (Region.others (m.since ((builtin .spawn [v]).effect m))) :=
      fun w hw f hf hsince => Nat.not_lt.mpr hsince.1 (hfits w hw f hf)
    exact (inside_effect hinside hin hcut.1).1

end Deed

namespace Machine.Parted

open Eval

variable {homes : List (Job × Region)} {m : Machine} {d : Deed}

/-- the deed makes no scopes of the regions -/
theorem sorted (h : m.Parted homes) (hfits : d.Fits m.size) (hplain : d.KeepsPlain) {x : Job × Region} (hx : x ∈ homes) :
    d.Sorted x.2.others m := by
  have hnew : ∀ i, m.size ≤ i → i < (performAll [d] m).size → x.2.others i := fun i hle _ hi =>
    Nat.not_lt.mpr hle ((h.housed x hx).there i hi)
  have hsorted : Deed.Along (Deed.Sorted x.2.others) [d] m := 
    Deed.along_sorted h.wellFormed ⟨hfits, trivial⟩ (List.forall_mem_singleton.mpr hplain) hnew
  exact hsorted.1

/-- **One deed** that is told of no region of waiting work leaves these alone, and what it makes for new work is a
region for itself. -/
theorem effect (h : m.Parted homes) (hfits : d.Fits m.size) (hplain : d.KeepsPlain)
    (hd : ∀ x ∈ homes, d.In x.2.others) : (d.effect m).Parted (homes ++ d.claimed m) := by
  have hwell := (d.wellFormed_effect h.wellFormed hfits).1
  refine ⟨hwell, h.confined.effect hplain, ?_, fun x hx => ?_, fun x hx => ?_, ?_⟩
  · rw [(d.steady_effect m).jobs, h.jobs, List.map_append, d.map_claimed m]
  · rcases List.mem_append.mp hx with hx | hx
    · refine (h.housed x hx).congr fun i hi => ?_
      exact Deed.kept_effect (hd x hx) ((h.housed x hx).there i hi) (fun hother => hother hi)
    · exact (Deed.claimed_apart h.wellFormed h.confined hfits hx).1
  · rcases List.mem_append.mp hx with hx | hx
    · exact (Deed.inside_effect (h.apart x hx) (hd x hx) (h.sorted hfits hplain hx)).1
    · exact (Deed.claimed_apart h.wellFormed h.confined hfits hx).2.1
  · rw [List.pairwise_append]
    refine ⟨h.disjoint, ?_, fun x hx y hy i hi hi' => ?_⟩
    · unfold Deed.claimed
      cases d.accepted m with
      | none => exact .nil
      | some job => exact List.pairwise_singleton _ _
    · have hlt := (h.housed x hx).there i hi
      exact Nat.not_lt.mpr ((Deed.claimed_apart h.wellFormed h.confined hfits hy).2.2 i hi') hlt

end Machine.Parted

/-- no deed is told of the scopes of work that was left by a deed before it -/
def Deed.Unshared : List Deed → Machine → Prop
  | [], _ => True
  | d :: deeds, m => (∀ x ∈ d.claimed m, ∀ e ∈ deeds, e.In x.2.others) ∧ Unshared deeds (d.effect m)

/-- **Many deeds** leave the regions of waiting work alone, and make a region for each new piece of work. -/
theorem Machine.Parted.performAll {homes : List (Job × Region)} {m : Machine} {deeds : List Deed} (h : m.Parted homes)
    (hfit : Deed.AllFit deeds m) (hplain : ∀ d ∈ deeds, d.KeepsPlain) (hin : ∀ x ∈ homes, ∀ d ∈ deeds, d.In x.2.others)
    (hunshared : Deed.Unshared deeds m) :
    ∃ new, (Ouroboros.performAll deeds m).Parted (homes ++ new) ∧ ∀ x ∈ new, ∀ i, x.2 i → m.size ≤ i := by
  induction deeds generalizing m homes with
  | nil => exact ⟨[], by rwa [List.append_nil], List.forall_mem_nil _⟩
  | cons d deeds ih =>
    rw [List.forall_mem_cons] at hplain
    have hstep := h.effect hfit.1 hplain.1 fun x hx => hin x hx d List.mem_cons_self
    have hrest : ∀ x ∈ homes ++ d.claimed m, ∀ e ∈ deeds, e.In x.2.others := by
      intro x hx e he
      rcases List.mem_append.mp hx with hx | hx
      · exact hin x hx e (List.mem_cons_of_mem _ he)
      · exact hunshared.1 x hx e he
    obtain ⟨new, hparted, hnew⟩ := ih hstep hfit.2 hplain.2 hrest hunshared.2
    refine ⟨d.claimed m ++ new, by rwa [List.append_assoc] at hparted, fun x hx i hi => ?_⟩
    rcases List.mem_append.mp hx with hx | hx
    · exact (Deed.claimed_apart h.wellFormed h.confined hfit.1 hx).2.2 i hi
    · exact Nat.le_trans (d.preserves_effect m).size (hnew x hx i hi)

/-! ## Operations -/

namespace Operation

open Eval

variable {op : Operation} {m : Machine} {deeds : List Deed}

/-- the operation comes to its end by these deeds -/
def Does (op : Operation) (m : Machine) (deeds : List Deed) : Prop :=
  ∃ N, ∀ n, N ≤ n → op.runWithin n m = some (.ok (op.perform m).1, deeds)

theorem exists_does (hm : m.WellFormed) (hop : op.Fits m.size) : ∃ deeds, op.Does m deeds := by
  obtain ⟨N, deeds, hends, -⟩ := exists_effort op hm hop
  exact ⟨deeds, N, hends⟩

theorem Does.spec (h : op.Does m deeds) (hm : m.WellFormed) (hop : op.Fits m.size) :
    performAll deeds m = (op.perform m).2 ∧ Deed.AllFit deeds m := by
  obtain ⟨N, hends⟩ := h
  obtain ⟨N', deeds', hends', hdeeds, hfit⟩ := (settles_step op hop m hm.holds (Nat.le_refl _)).ends
  have hsame := (hends _ (Nat.le_max_left N N')).symm.trans (hends' _ (Nat.le_max_right N N'))
  obtain rfl : deeds = deeds' := (Prod.mk.inj (Option.some.inj hsame)).2
  rw [step_apply] at hdeeds
  exact ⟨hdeeds, hfit⟩

theorem Fits.isIn {n : Nat} (h : op.Fits n) {A : Region} (hA : ∀ i < n, A i) : op.In A := by
  cases op with
  | exec p scope => exact fun s hs => hA s (h s hs)
  | execSource => trivial
  | call f args => exact ⟨fun g hg => hA _ (h.1 g hg), fun v hv g hg => hA _ (h.2 v hv g hg)⟩

/-- a confined host has no functions kept -/
theorem Does.keepsPlain (h : op.Does m deeds) (hhost : m.world.Confined) : ∀ d ∈ deeds, d.KeepsPlain := by
  obtain ⟨N, hends⟩ := h
  exact does_runWithin Deed.doneFor_keepsPlain (fun _ => nofun) N op m _ deeds hhost.keeps (hends N (Nat.le_refl _))

/-- what is done is told of no scope that is made for new work -/
theorem Does.unshared (h : op.Does m deeds) (hm : m.WellFormed) (hhost : m.world.Confined) (hop : op.Fits m.size) :
    Deed.Unshared deeds m := by
  obtain ⟨-, hfit⟩ := h.spec hm hop
  have hplain := h.keepsPlain hhost
  obtain ⟨N, hends⟩ := h
  have hcut : ∀ before behind, deeds = before ++ behind → Deed.Unshared behind (performAll before m) := by
    intro before behind hsplit
    induction behind generalizing before with
    | nil => trivial
    | cons d behind ih =>
      refine ⟨fun x hx e he => ?_, ?_⟩
      · obtain ⟨job, hjob, rfl⟩ := List.mem_map.mp hx
        obtain ⟨v, rfl, -, -⟩ := Deed.accepted_eq_some (Option.mem_toList.mp hjob)
        rw [hsplit] at hfit hplain
        have hsorted := Deed.along_sorted_cut hm hfit hplain rfl
        rw [← hsplit] at hsorted
        have hold : ∀ i < m.size, Region.others ((performAll before m).since
            ((Deed.builtin .spawn [v]).effect (performAll before m))) i := fun i hlt hsince =>
          Nat.not_lt.mpr (Nat.le_trans (Deed.size_performAll before m) hsince.1) hlt
        refine confined_runWithin (hop.isIn hold) (hends N (Nat.le_refl _)) (hm.inside hhost hold) hsorted e ?_
        rw [hsplit]
        simp [he]
      · have hnext := ih (before ++ [d]) (by rw [hsplit, List.append_assoc, List.singleton_append])
        rwa [performAll_append] at hnext
  exact hcut [] deeds rfl

/-- what is done is told of no region of waiting work, when the operation is told of none -/
theorem Does.apart (h : op.Does m deeds) {homes : List (Job × Region)} (hm : m.Parted homes) (hop : op.Fits m.size)
    {x : Job × Region} (hx : x ∈ homes) (hin : op.In x.2.others) : ∀ d ∈ deeds, d.In x.2.others := by
  obtain ⟨-, hfit⟩ := h.spec hm.wellFormed hop
  have hplain := h.keepsPlain hm.confined
  obtain ⟨N, hends⟩ := h
  refine confined_runWithin hin (hends N (Nat.le_refl _)) (hm.apart x hx) ?_
  exact Deed.along_sorted hm.wellFormed hfit hplain fun i hle _ hi => Nat.not_lt.mpr hle ((hm.housed x hx).there i hi)

/-- **Operations and the work that waits.** -/
theorem Does.parted (h : op.Does m deeds) {homes : List (Job × Region)} (hm : m.Parted homes) (hop : op.Fits m.size)
    (hin : ∀ x ∈ homes, op.In x.2.others) :
    ∃ new, (op.perform m).2.Parted (homes ++ new) ∧ ∀ x ∈ new, ∀ i, x.2 i → m.size ≤ i := by
  obtain ⟨hdeeds, hfit⟩ := h.spec hm.wellFormed hop
  rw [← hdeeds]
  exact hm.performAll hfit (h.keepsPlain hm.confined) (fun x hx => h.apart hm hop hx (hin x hx))
    (h.unshared hm.wellFormed hm.confined hop)

theorem Does.kept (h : op.Does m deeds) {homes : List (Job × Region)} (hm : m.Parted homes) (hop : op.Fits m.size)
    {x : Job × Region} (hx : x ∈ homes) (hin : op.In x.2.others) {i : ScopeId} (hi : x.2 i) :
    (op.perform m).2.world.store.scopes[i]? = m.world.store.scopes[i]? := by
  rw [← (h.spec hm.wellFormed hop).1]
  exact Deed.kept_performAll (h.apart hm hop hx hin) ((hm.housed x hx).there i hi) fun hother => hother hi

theorem Does.steady (h : op.Does m deeds) (hm : m.WellFormed) (hop : op.Fits m.size) :
    Machine.Steady (∀ d ∈ deeds, d.isCalm = true) (Deed.taken (Deed.trail deeds m)) m (op.perform m).2 := by
  rw [← (h.spec hm hop).1]
  exact Deed.steady_performAll deeds m

end Operation

/-! ## Work -/

namespace Machine

open Eval

variable {m m' : Machine} {homes behind new : List (Job × Region)} {job : Job} {B : Region}

/-- the machine when other work waits -/
def withJobs (m : Machine) (js : List Job) : Machine := { m with world := { m.world with jobs := js } }

/-- the interpreter of a piece of work in the world of the machine -/
def child (m : Machine) (job : Job) : Machine := ⟨job.interpreter, m.world⟩

/-- the region of a piece of work has no scope of the regions of the others -/
theorem Parted.cut (h : m.Parted (homes ++ (job, B) :: behind)) {x : Job × Region} (hx : x ∈ homes ++ behind)
    {i : ScopeId} (hi : B i) : ¬x.2 i := by
  have hdisjoint := h.disjoint
  rw [List.pairwise_append, List.pairwise_cons] at hdisjoint
  obtain ⟨-, ⟨hbehind, -⟩, hbefore⟩ := hdisjoint
  intro hi'
  rcases List.mem_append.mp hx with hx | hx
  · exact hbefore x hx _ List.mem_cons_self i hi' hi
  · exact hbehind x hx i hi hi'

/-- what is left of `m` when the work is taken from it, with the interpreter of the work -/
theorem Parted.child (h : m.Parted (homes ++ (job, B) :: behind)) {js : List Job}
    (hjs : js = (homes ++ behind).map Prod.fst) : ((m.withJobs js).child job).Parted (homes ++ behind) := by
  have hhoused := h.housed (job, B) (by simp)
  have hsub : (homes ++ behind).Sublist (homes ++ (job, B) :: behind) :=
    List.Sublist.append_left (List.sublist_cons_self _ _) _
  have hwell := hhoused.wellFormed h.wellFormed
  refine ⟨hwell.congr rfl rfl rfl rfl ⟨rfl, rfl, rfl⟩, ⟨h.confined.hosts, h.confined.keeps, h.confined.memory⟩, hjs,
    fun x hx => h.housed x (hsub.subset hx), fun x hx => ?_, h.disjoint.sublist hsub⟩
  have hinside := h.apart x (hsub.subset hx)
  refine ⟨hinside.closed, h.cut hx hhoused.core, h.cut hx hhoused.global, ?_, hinside.hosts, hinside.memory⟩
  change ∀ e ∈ job.interpreter.handlers, _
  rw [hhoused.handlers]
  exact List.forall_mem_nil _

/-- back to the interpreter of `m`, when new regions have new scopes only -/
theorem Parted.back (h : m.Parted homes) (h' : m'.Parted (behind ++ new)) (hsub : ∀ x ∈ behind, x ∈ homes)
    (hsize : m.size ≤ m'.size) (hnew : ∀ x ∈ new, ∀ i, x.2 i → m.size ≤ i) :
    Parted (behind ++ new) ⟨m.interpreter, m'.world⟩ := by
  have hothers : ∀ x ∈ behind ++ new, m.Inside x.2.others := by
    intro x hx
    rcases List.mem_append.mp hx with hx | hx
    · exact h.apart x (hsub x hx)
    · exact h.wellFormed.inside h.confined fun i hlt hi => Nat.not_lt.mpr (hnew x hx i hi) hlt
  have hwell := h'.wellFormed
  refine ⟨⟨hwell.store, Nat.lt_of_lt_of_le h.wellFormed.core hsize, Nat.lt_of_lt_of_le h.wellFormed.global hsize, ?_,
    hwell.hosts, hwell.memory⟩, h'.confined, h'.jobs, h'.housed, fun x hx => ?_, h'.disjoint⟩
  · exact fun e he v hv => (h.wellFormed.handlers e he v hv).mono hsize
  · have hinside := h'.apart x hx
    have hother := hothers x hx
    exact ⟨hinside.closed, hother.core, hother.global, hother.handlers, hinside.hosts, hinside.memory⟩

/-- another machine with the same scopes, interpreter, host and waiting work -/
theorem Parted.congr (h : m.Parted homes) (hstore : m'.world.store = m.world.store)
    (hinterpreter : m'.interpreter = m.interpreter) (hhost : m.world.SameHost m'.world)
    (hjobs : m'.world.jobs = m.world.jobs) : m'.Parted homes := by
  refine ⟨h.wellFormed.of_same hstore hinterpreter hhost, ⟨?_, ?_, ?_⟩, hjobs.trans h.jobs, ?_, fun x hx => ?_, h.disjoint⟩
  · rw [hhost.hosts]
    exact h.confined.hosts
  · rw [World.HostsAsk, hhost.hosts]
    exact h.confined.keeps
  · rw [hhost.memory]
    exact h.confined.memory
  · rw [hstore]
    exact h.housed
  · exact (h.apart x hx).of_same hstore hinterpreter hhost

/-- the report of a failure changes neither scopes nor waiting work, nor the outside -/
theorem report_steady (job : Job) (ds : List Diagnostic) (m : Machine) :
    (job.report ds m).2.world.store = m.world.store ∧ (job.report ds m).2.interpreter = m.interpreter ∧
      m.world.SameHost (job.report ds m).2.world ∧ Steady True [] m (job.report ds m).2 := by
  obtain ⟨hstore, hinterpreter, hhosts, -⟩ := Quiet.andThen (quiet_log _) (fun _ => quiet_perform _) m
  refine ⟨hstore, hinterpreter, hhosts, ?_⟩
  have hlog := steady_log True (fun _ => ⟨text "spawned call failed",
    [(text "function", job.name), (text "error", summarize ds)]⟩) m
  exact hlog.trans (steady_perform True _ _)

/-- work is a call by its own interpreter; what else is done is to report its failure -/
theorem runJob_after (m : Machine) (job : Job) : ∃ after : Machine,
    after.world.store = ((Operation.call job.work []).perform (m.child job)).2.world.store ∧
    after.interpreter = ((Operation.call job.work []).perform (m.child job)).2.interpreter ∧
    ((Operation.call job.work []).perform (m.child job)).2.world.SameHost after.world ∧
    Steady True [] ((Operation.call job.work []).perform (m.child job)).2 after ∧
    m.runJob job = ⟨m.interpreter, after.world⟩ := by
  have hcall : (Operation.call job.work []).perform (m.child job) = Machine.call ⟨job.interpreter, m.world⟩ job.work [] :=
    rfl
  rw [hcall, runJob_eq]
  rcases Machine.call ⟨job.interpreter, m.world⟩ job.work [] with ⟨ds | v, child⟩
  · obtain ⟨hstore, hinterpreter, hhost, hsteady⟩ := report_steady job ds child
    exact ⟨_, hstore, hinterpreter, hhost, hsteady, rfl⟩
  · exact ⟨child, rfl, rfl, .refl _, .same rfl rfl rfl, rfl⟩

/-- what waits after a piece of work is run, and what is done to the outside -/
theorem runJob_steady {deeds : List Deed} (hwell : (m.child job).WellFormed)
    (hfits : (Operation.call job.work []).Fits (m.child job).size)
    (does : (Operation.call job.work []).Does (m.child job) deeds) :
    Steady (∀ d ∈ deeds, d.isCalm = true) (Deed.taken (Deed.trail deeds (m.child job))) m (m.runJob job) := by
  obtain ⟨after, -, -, -, hreport, hrun⟩ := m.runJob_after job
  have hsteady := (does.steady hwell hfits).trans (hreport.mono fun _ => trivial)
  rw [List.append_nil] at hsteady
  rw [hrun]
  exact ⟨hsteady.jobs, hsteady.record, hsteady.closed, hsteady.outside⟩

/-- **Running work that waits.** The other work keeps its regions, and new work gets regions of its own. -/
theorem Parted.runJob (h : m.Parted (homes ++ (job, B) :: behind)) {js : List Job}
    (hjs : js = (homes ++ behind).map Prod.fst) {deeds : List Deed}
    (hdoes : (Operation.call job.work []).Does ((m.withJobs js).child job) deeds) :
    (∃ new, ((m.withJobs js).runJob job).Parted ((homes ++ behind) ++ new) ∧ ∀ x ∈ new, ∀ i, x.2 i → m.size ≤ i) ∧
      Steady (∀ d ∈ deeds, d.isCalm = true) (Deed.taken (Deed.trail deeds ((m.withJobs js).child job))) (m.withJobs js)
        ((m.withJobs js).runJob job) := by
  have hchild := h.child hjs
  have hhoused := h.housed (job, B) (by simp)
  have hfits : (Operation.call job.work []).Fits ((m.withJobs js).child job).size :=
    ⟨fun f hf => hhoused.there _ (hhoused.work f hf), List.forall_mem_nil _⟩
  have hin : ∀ x ∈ homes ++ behind, (Operation.call job.work []).In x.2.others := fun x hx =>
    ⟨fun f hf => h.cut hx (hhoused.work f hf), List.forall_mem_nil _⟩
  obtain ⟨new, hparted, hnew⟩ := hdoes.parted hchild hfits hin
  have hgrows := Deed.size_performAll deeds ((m.withJobs js).child job)
  rw [(hdoes.spec hchild.wellFormed hfits).1] at hgrows
  refine ⟨⟨new, ?_, hnew⟩, runJob_steady hchild.wellFormed hfits hdoes⟩
  obtain ⟨after, hstore, hinterpreter, hhosts, hreport, hrun⟩ := (m.withJobs js).runJob_after job
  have hafter := hparted.congr hstore hinterpreter hhosts (hreport.jobs.trans (List.append_nil _))
  rw [hrun]
  refine h.back hafter (fun x hx => ?_) ?_ hnew
  · exact (List.Sublist.append_left (List.sublist_cons_self _ _) _).subset hx
  · rw [Machine.size, Machine.size, hstore]
    exact hgrows

end Machine

end Ouroboros
