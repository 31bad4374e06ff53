/-
Actions: steps that read and change a state and may end in a diagnostic. A failed action keeps the changes it made
before it failed, so what a program did before an error stays done.
-/
import Ouroboros.Diagnostic

namespace Ouroboros

/-- a step over states `σ` that gives an `α` or fails, and leaves a state either way -/
def Action (σ α : Type) : Type := σ → Except Diagnostic α × σ

namespace Action

variable {σ α β : Type}

/-- the step that gives `a` and changes nothing -/
@[always_inline, inline]
protected def pure (a : α) : Action σ α := fun s => (.ok a, s)

/-- one step and then, unless it failed, the next -/
@[always_inline, inline]
protected def bind (x : Action σ α) (f : α → Action σ β) : Action σ β := fun s =>
  match x s with
  | (.ok a, s) => f a s
  | (.error d, s) => (.error d, s)

@[always_inline]
instance : Monad (Action σ) where
  pure := Action.pure
  bind := Action.bind

@[always_inline, inline]
def state : Action σ σ := fun s => (.ok s, s)

@[always_inline, inline]
def asks (f : σ → α) : Action σ α := fun s => (.ok (f s), s)

@[always_inline, inline]
def change (f : σ → σ) : Action σ Unit := fun s => (.ok (), f s)

/-- gives a part of the state and changes the state -/
@[always_inline, inline]
def exchange (f : σ → α × σ) : Action σ α := fun s =>
  match f s with
  | (a, s) => (.ok a, s)

@[always_inline, inline]
def fail (d : Diagnostic) : Action σ α := fun s => (.error d, s)

@[always_inline, inline]
def failAt (pos : Pos) (fault : Fault) : Action σ α := fail ⟨fault, pos, [], false⟩

/-- the outcome of a step, failed or not -/
@[always_inline, inline]
def attempt (x : Action σ α) : Action σ (Except Diagnostic α) := fun s =>
  match x s with
  | (r, s) => (.ok r, s)

@[simp] theorem pure_apply (a : α) (s : σ) : (pure a : Action σ α) s = (.ok a, s) := rfl

@[simp] theorem bind_apply (x : Action σ α) (f : α → Action σ β) (s : σ) :
    (x >>= f) s = match x s with
      | (.ok a, s) => f a s
      | (.error d, s) => (.error d, s) := rfl

theorem map_id_eq (x : Action σ α) : id <$> x = x := by
  funext s
  change Action.bind x (Action.pure ∘ id) s = x s
  unfold Action.bind
  rcases x s with ⟨_ | _, _⟩ <;> rfl

theorem bind_assoc_eq {γ : Type} (x : Action σ α) (f : α → Action σ β) (g : β → Action σ γ) :
    x >>= f >>= g = x >>= fun a => f a >>= g := by
  funext s
  simp only [bind_apply]
  rcases x s with ⟨_ | _, _⟩ <;> rfl

instance : LawfulMonad (Action σ) := LawfulMonad.mk' _ map_id_eq (fun _ _ => rfl) bind_assoc_eq

end Action

end Ouroboros
