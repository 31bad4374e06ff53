/-
What builtins fail with.

A builtin does not know where it was called. What it fails with, apart from the calls that it makes, has neither a place nor
a trace yet, belongs to the running of programs, and is never an overflow of the active calls; whoever has called it adds
the place. The exception is a diagnostic that a graphics backend gives of its own: it is passed on as it is
(`Primitive.raises_run`).
-/
import Ouroboros.Proofs.Execution.Idle

namespace Ouroboros

/-- the failure of a running program, but no overflow, to which no call has added anything yet -/
def Diagnostic.IsFresh (d : Diagnostic) : Prop := ∃ fault : Fault, fault.isOwn = true ∧ d = ⟨fault, .unknown, [], false⟩

/-- the diagnostics that the graphics backend, if there is one, gives of its own are as `Q` says -/
def World.RefusesWith (Q : Diagnostic → Prop) (w : World) : Prop :=
  ∀ backend, w.graphics = some backend → ∀ past call d, backend.respond past call = some (.diagnostic d) → Q d

namespace World.RefusesWith

variable {Q Q' : Diagnostic → Prop} {w w' : World}

theorem of_none (h : w.graphics = none) : w.RefusesWith Q := by
  intro backend hbackend
  cases h.symm.trans hbackend

theorem congr (h : w.RefusesWith Q) (hgraphics : w'.graphics = w.graphics) : w'.RefusesWith Q :=
  fun backend hbackend => h backend (hgraphics.symm.trans hbackend)

theorem mono (h : w.RefusesWith Q) (hQ : ∀ d, Q d → Q' d) : w.RefusesWith Q' :=
  fun backend hbackend past call d hd => hQ d (h backend hbackend past call d hd)

end World.RefusesWith

namespace Eval

variable {Q : Diagnostic → Prop} {α β : Type}

/-- as long as the graphics backend gives only diagnostics as `Q` says, the step fails only with them and with fresh
failures -/
def Raises (Q : Diagnostic → Prop) ⦃α : Type⦄ (x : Eval α) : Prop := ∀ m, m.world.RefusesWith Q →
  (x m).2.world.RefusesWith Q ∧ ∀ d, (x m).1 = .error d → d.IsFresh ∨ Q d

namespace Raises

/-- a step that does not fail and leaves the graphics backend alone -/
theorem of_ok {x : Eval α} (h : ∀ m, (x m).2.world.graphics = m.world.graphics ∧ ∃ a, (x m).1 = .ok a) : Raises Q x := by
  intro m hm
  obtain ⟨hgraphics, a, ha⟩ := h m
  refine ⟨hm.congr hgraphics, fun d hd => ?_⟩
  cases ha.symm.trans hd

theorem pure (a : α) : Raises Q (Pure.pure a) := of_ok fun _ => ⟨rfl, a, rfl⟩

theorem asks (f : Machine → α) : Raises Q (Action.asks f) := of_ok fun m => ⟨rfl, f m, rfl⟩

theorem change {f : Machine → Machine} (h : ∀ m, (f m).world.graphics = m.world.graphics) :
    Raises Q (Action.change f) := of_ok fun m => ⟨h m, (), rfl⟩

theorem fail {d : Diagnostic} (h : d.IsFresh ∨ Q d) : Raises Q (Action.fail d : Eval α) := by
  intro m hm
  refine ⟨hm, ?_⟩
  rintro _ ⟨⟩
  exact h

theorem raise {fault : Fault} (h : fault.isOwn = true) : Raises Q (Eval.raise fault : Eval α) :=
  fail (.inl ⟨fault, h, rfl⟩)

theorem bind {x : Eval α} {k : α → Eval β} (hx : Raises Q x) (hk : ∀ a, Raises Q (k a)) : Raises Q (x >>= k) := by
  intro m hm
  obtain ⟨hafter, hfail⟩ := hx m hm
  rw [Action.bind_apply]
  rcases hrun : x m with ⟨e | a, m'⟩ <;> rw [hrun] at hafter hfail
  · refine ⟨hafter, ?_⟩
    rintro d ⟨⟩
    exact hfail e rfl
  · exact hk a m' hafter

theorem log (entry : Machine → LogEntry) : Raises Q (Eval.log entry) := by
  refine change fun m => ?_
  split
  · rfl
  · rfl

/-- a graphics backend that has been asked answers as before -/
theorem refuse (operation : Bytes) (call : GraphicsCall) : Raises Q (consult call >>= heed operation) := by
  intro m hm
  rw [Action.bind_apply]
  cases hgraphics : m.world.graphics with
  | none =>
    have hrun : consult call m = (.ok none, m) := by
      simp only [consult, Action.exchange, hgraphics]
    rw [hrun]
    exact pure () m hm
  | some backend =>
    have hrun : consult call m = (.ok (backend.ask call).1,
        { m with world := { m.world with graphics := some (backend.ask call).2 } }) := by
      simp only [consult, Action.exchange, hgraphics]
    have hasked : ({ m.world with graphics := some (backend.ask call).2 } : World).RefusesWith Q := by
      rintro _ ⟨⟩ past call' d hd
      exact hm backend hgraphics past call' d hd
    rw [hrun]
    rcases hanswer : (backend.ask call).1 with _ | t | d
    · exact pure () _ hasked
    · exact raise rfl _ hasked
    · exact fail (.inr (hm backend hgraphics _ call d hanswer)) _ hasked

end Raises

theorem raises_rules (Q : Diagnostic → Prop) : IdleRules (Raises Q) where
  pure := .pure
  bind := .bind
  raise := .raise
  asks := .asks
  perform _ := .change fun _ => rfl
  log _ := .log _
  limitSink _ := .change fun _ => rfl
  passTime _ := .change fun _ => rfl
  takeLine := .of_ok fun _ => ⟨rfl, _, rfl⟩
  refuse := .refuse
  request _ := .of_ok fun _ => ⟨rfl, _, rfl⟩
  schedule _ := .of_ok fun _ => ⟨rfl, _, rfl⟩
  addHandler _ _ := .change fun _ => rfl

end Eval

namespace Primitive

/-- **Builtins fail without a place.** What a builtin fails with, apart from the calls that it makes, has no place and no
trace, and is a failure of a running program, but no overflow; or it is a diagnostic of the graphics backend. -/
theorem raises_run (Q : Diagnostic → Prop) (p : Primitive) (args : List Value) : Eval.Raises Q (p.run Deed.idle args) :=
  (Eval.raises_rules Q).run p args

end Primitive

end Ouroboros
