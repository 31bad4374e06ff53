/-
Courses that settle.

A course of evaluation settles for a step (`SettlesAt`) when with enough effort it gives what the step gives, by deeds that
make of the machine what the step makes of it. Courses put together settle for the steps put together. Along the way
the machine stays well-formed and keeps its limit and its active calls, and what is given refers to scopes that are
there.
-/
import Ouroboros.Proofs.Execution.Tasks
import Ouroboros.Proofs.Execution.WellFormed

namespace Ouroboros

/-- where evaluation stands: the limit on nested calls, and the active calls -/
structure Site where
  limit : Int
  frames : List Frame

/-- the site inside a call -/
def Site.inside (c : Site) (frame : Frame) : Site := { c with frames := frame :: c.frames }

/-- the machine is well-formed and stands at the site -/
structure Site.Holds (c : Site) (m : Machine) : Prop where
  wellFormed : m.WellFormed
  limit : m.interpreter.limit = c.limit
  frames : m.interpreter.frames = c.frames

/-- the number of scopes -/
abbrev Machine.size (m : Machine) : Nat := m.world.store.scopes.size

variable {α β : Type}

/-- from the machine `m` on, the course `x` with enough effort does what the step `y` does; `y` leaves a machine at the
site `c`, and what it gives is as `V` says of the number of scopes -/
structure SettlesAt (c : Site) (V : Nat → α → Prop) (x : Nat → Course α) (y : Eval α) (m : Machine) : Prop where
  ends : ∃ N deeds, (∀ n, N ≤ n → x n m = some ((y m).1, deeds)) ∧ performAll deeds m = (y m).2 ∧
    Deed.AllFit deeds m
  holds : c.Holds (y m).2
  grows : m.size ≤ (y m).2.size
  within : ∀ a, (y m).1 = .ok a → V (y m).2.size a

/-- from every machine at the site with at least `k` scopes, the course settles for the step -/
def Settles (c : Site) (k : Nat) (V : Nat → α → Prop) (x : Nat → Course α) (y : Eval α) : Prop :=
  ∀ m, c.Holds m → k ≤ m.size → SettlesAt c V x y m

namespace SettlesAt

variable {c c' : Site} {V : Nat → α → Prop} {W : Nat → β → Prop} {x : Nat → Course α} {y : Eval α} {m : Machine}

theorem pure {a : α} (hm : c.Holds m) (ha : V m.size a) : SettlesAt c V (fun _ => Pure.pure a) (Pure.pure a) m := by
  refine ⟨⟨0, [], fun _ _ => rfl, rfl, trivial⟩, hm, Nat.le_refl _, ?_⟩
  rintro b ⟨⟩
  exact ha

theorem fail (hm : c.Holds m) (e : Diagnostic) : SettlesAt c V (fun _ => Course.fail e) (Action.fail e) m :=
  ⟨⟨0, [], fun _ _ => rfl, rfl, trivial⟩, hm, Nat.le_refl _, nofun⟩

theorem failAt (hm : c.Holds m) (pos : Pos) (fault : Fault) :
    SettlesAt c V (fun _ => Course.failAt pos fault) (Action.failAt pos fault) m := fail hm _

theorem asks (hm : c.Holds m) (f : Machine → α) (hf : V m.size (f m)) :
    SettlesAt c V (fun _ => Course.asks f) (Action.asks f) m := by
  refine ⟨⟨0, [], fun _ _ => rfl, rfl, trivial⟩, hm, Nat.le_refl _, ?_⟩
  rintro b ⟨⟩
  exact hf

/-- a part of the machine of which nothing is asked -/
theorem look (hm : c.Holds m) (f : Machine → α) :
    SettlesAt c (fun _ _ => True) (fun _ => Course.asks f) (Action.asks f) m := asks hm f trivial

/-- a step that changes nothing -/
theorem reads (hm : c.Holds m) (hy : (y m).2 = m) (hV : ∀ a, (y m).1 = .ok a → V m.size a) :
    SettlesAt c V (fun _ => Course.reads fun m => (y m).1) y m := by
  refine ⟨⟨0, [], fun _ _ => rfl, hy.symm, trivial⟩, ?_, ?_, ?_⟩
  · rw [hy]
    exact hm
  · rw [hy]
  · rw [hy]
    exact hV

/-- a step that does the same from this machine on -/
theorem congr {y' : Eval α} (h : SettlesAt c V x y m) (hy : y' m = y m) : SettlesAt c V x y' m := by
  obtain ⟨hends, hholds, hgrows, hwithin⟩ := h
  rw [← hy] at hends hholds hgrows hwithin
  exact ⟨hends, hholds, hgrows, hwithin⟩

theorem deed {d : Deed} (hm : m.WellFormed) (hd : d.Fits m.size) (hc : c.Holds (d.effect m)) :
    SettlesAt c d.AnswerWithin (fun _ => Course.deed d) d.act m :=
  ⟨⟨0, [d], fun _ _ => rfl, rfl, hd, trivial⟩, hc, (d.preserves_effect m).size, (d.wellFormed_effect hm hd).2⟩

theorem bind {k : Nat → α → Course β} {l : α → Eval β} (hx : SettlesAt c V x y m)
    (hk : ∀ a, (y m).1 = .ok a → SettlesAt c' W (fun n => k n a) (l a) (y m).2) (hc : ∀ e, (y m).1 = .error e → c = c') :
    SettlesAt c' W (fun n => x n >>= k n) (y >>= l) m := by
  obtain ⟨N, deeds, hends, hdeeds, hfit⟩ := hx.ends
  have hgrows := hx.grows
  have hholds := hx.holds
  rcases hy : y m with ⟨e | a, m'⟩
  · have hrun : (y >>= l) m = (.error e, m') := by
      rw [Action.bind_apply, hy]
    rw [hy] at hends hdeeds hgrows hholds
    refine ⟨⟨N, deeds, fun n hn => ?_, ?_, hfit⟩, ?_, ?_, ?_⟩
    · rw [hrun]
      change Course.bind (x n) (k n) m = _
      rw [Course.bind, hends n hn]
    · rw [hrun]
      exact hdeeds
    · rw [hrun, ← hc e (by rw [hy])]
      exact hholds
    · rw [hrun]
      exact hgrows
    · rw [hrun]
      intro a ha
      cases ha
  · have hrun : (y >>= l) m = l a m' := by
      rw [Action.bind_apply, hy]
    have hnext := hk a (by rw [hy])
    rw [hy] at hends hdeeds hgrows hnext
    obtain ⟨N', deeds', hends', hdeeds', hfit'⟩ := hnext.ends
    refine ⟨⟨max N N', deeds ++ deeds', fun n hn => ?_, ?_, ?_⟩, ?_, ?_, ?_⟩
    · rw [hrun]
      change Course.bind (x n) (k n) m = _
      rw [Course.bind, hends n (Nat.le_trans (Nat.le_max_left N N') hn)]
      simp only [hdeeds, hends' n (Nat.le_trans (Nat.le_max_right N N') hn), Option.map_some]
    · rw [hrun, performAll_append, hdeeds]
      exact hdeeds'
    · rw [Deed.allFit_append, hdeeds]
      exact ⟨hfit, hfit'⟩
    · rw [hrun]
      exact hnext.holds
    · rw [hrun]
      exact Nat.le_trans hgrows hnext.grows
    · rw [hrun]
      exact hnext.within

/-- a step that does not fail, and then a step to another site -/
theorem andThen {k : Nat → α → Course β} {l : α → Eval β} {a : α} (hx : SettlesAt c V x y m) (ha : (y m).1 = .ok a)
    (hk : SettlesAt c' W (fun n => k n a) (l a) (y m).2) : SettlesAt c' W (fun n => x n >>= k n) (y >>= l) m := by
  refine hx.bind (fun b hb => ?_) fun e he => ?_
  · obtain rfl : a = b := Except.ok.inj (ha.symm.trans hb)
    exact hk
  · nomatch ha.symm.trans he

theorem attempt (h : SettlesAt c V x y m) :
    SettlesAt c (fun n r => ∀ a, r = .ok a → V n a) (fun n => Course.attempt (x n)) (Action.attempt y) m := by
  obtain ⟨N, deeds, hends, hdeeds⟩ := h.ends
  refine ⟨⟨N, deeds, fun n hn => ?_, hdeeds⟩, h.holds, h.grows, ?_⟩
  · rw [Course.attempt, hends n hn]
    rfl
  · rintro r ⟨⟩
    exact h.within

theorem ite {p : Prop} [Decidable p] {x' : Nat → Course α} {y' : Eval α} (h : p → SettlesAt c V x y m)
    (h' : ¬p → SettlesAt c V x' y' m) :
    SettlesAt c V (fun n => if p then x n else x' n) (if p then y else y') m := by
  by_cases hp : p
  · simpa only [if_pos hp] using h hp
  · simpa only [if_neg hp] using h' hp

/-- a task is carried out by one more level of tasks -/
theorem task (t : Eval.Task) {V : Nat → t.Answer → Prop} {y : Eval t.Answer}
    (h : SettlesAt c V (fun n => t.expand (Eval.Task.runWithin n)) y m) :
    SettlesAt c V (fun n => Eval.Task.runWithin n t) y m := by
  obtain ⟨N, deeds, hends, hdeeds⟩ := h.ends
  refine ⟨⟨N + 1, deeds, fun n hn => ?_, hdeeds⟩, h.holds, h.grows, h.within⟩
  obtain ⟨n, rfl⟩ : ∃ k, n = k + 1 := ⟨n - 1, by omega⟩
  exact hends n (Nat.le_of_succ_le_succ hn)

end SettlesAt

theorem Deed.Fits.mono {d : Deed} {k n : Nat} (h : d.Fits k) (hn : k ≤ n) : d.Fits n := by
  cases d with
  | openScope parent bindings => exact ⟨Nat.lt_of_lt_of_le h.1 hn, fun b hb => (h.2 b hb).mono hn⟩
  | declare scope decl =>
    cases decl with
    | value name v => exact ⟨Nat.lt_of_lt_of_le h.1 hn, h.2.mono hn⟩
    | function sig body => exact Nat.lt_of_lt_of_le h hn
  | set owner name v => exact Value.Within.mono h hn
  | builtin p args => exact fun v hv => (h v hv).mono hn
  | remember vs => exact fun v hv => (h v hv).mono hn
  | moveGlobal scope => exact Nat.lt_of_lt_of_le h hn
  | enter | leave | trace | note => trivial

namespace Settles

variable {c : Site} {k : Nat} {V : Nat → α → Prop} {W : Nat → β → Prop} {x : Nat → Course α} {y : Eval α}

theorem pure {a : α} (ha : ∀ n, k ≤ n → V n a) : Settles c k V (fun _ => Pure.pure a) (Pure.pure a) :=
  fun m hm hk => .pure hm (ha m.size hk)

theorem failAt (pos : Pos) (fault : Fault) :
    Settles c k V (fun _ => Course.failAt pos fault) (Action.failAt pos fault) := fun _ hm _ => .failAt hm pos fault

theorem asks (f : Machine → α) (hf : ∀ m, c.Holds m → k ≤ m.size → V m.size (f m)) :
    Settles c k V (fun _ => Course.asks f) (Action.asks f) := fun m hm hk => .asks hm f (hf m hm hk)

theorem look (f : Machine → α) : Settles c k (fun _ _ => True) (fun _ => Course.asks f) (Action.asks f) :=
  fun _ hm _ => .look hm f

theorem bind {f : Nat → α → Course β} {g : α → Eval β} (hx : Settles c k V x y)
    (hf : ∀ a n, k ≤ n → V n a → Settles c n W (fun n => f n a) (g a)) :
    Settles c k W (fun n => x n >>= f n) (y >>= g) := by
  intro m hm hk
  have h := hx m hm hk
  refine h.bind (fun a ha => ?_) fun _ _ => rfl
  exact hf a _ (Nat.le_trans hk h.grows) (h.within a ha) _ h.holds (Nat.le_refl _)

theorem deed {d : Deed} (hd : d.Fits k) (hcalls : d.keepsCalls = true) :
    Settles c k d.AnswerWithin (fun _ => Course.deed d) d.act := by
  intro m hm hk
  have hd := hd.mono hk
  obtain ⟨hframes, hlimit⟩ := Deed.frames_effect hcalls m
  refine .deed hm.wellFormed hd ⟨(d.wellFormed_effect hm.wellFormed hd).1, ?_, ?_⟩
  · rw [hlimit, hm.limit]
  · rw [hframes, hm.frames]

theorem attempt (h : Settles c k V x y) :
    Settles c k (fun n r => ∀ a, r = .ok a → V n a) (fun n => Course.attempt (x n)) (Action.attempt y) :=
  fun m hm hk => (h m hm hk).attempt

theorem ite {p : Prop} [Decidable p] {x' : Nat → Course α} {y' : Eval α} (h : p → Settles c k V x y)
    (h' : ¬p → Settles c k V x' y') : Settles c k V (fun n => if p then x n else x' n) (if p then y else y') :=
  fun m hm hk => .ite (fun hp => h hp m hm hk) fun hp => h' hp m hm hk

theorem task (t : Eval.Task) {V : Nat → t.Answer → Prop} {y : Eval t.Answer}
    (h : Settles c k V (fun n => t.expand (Eval.Task.runWithin n)) y) :
    Settles c k V (fun n => Eval.Task.runWithin n t) y := fun m hm hk => (h m hm hk).task t

theorem congr {y' : Eval α} (h : Settles c k V x y) (hy : y' = y) : Settles c k V x y' := hy ▸ h

/-- a step that changes nothing -/
theorem reads (hy : ∀ m, (y m).2 = m) (hV : ∀ m a, k ≤ m.size → (y m).1 = .ok a → V m.size a) :
    Settles c k V (fun _ => Course.reads fun m => (y m).1) y :=
  fun m hm hk => .reads hm (hy m) fun a => hV m a hk

end Settles

end Ouroboros
