/-
Conditions on what a host's operations do.

An operation is a tree of questions, so a condition on it is a condition on every question that it can come to ask and on
every end that it can come to. `HostAction.AsksOnly` says which questions there are, whatever the answers.
`HostAction.Meets` says that the operation goes on well as long as the answers are good: it hands out only values and scopes
that a law admits, when it is given only such ones. What a law admits may change from one stage of a run to a later one.
`HostAction.PassesOn` says that the operation does not get over a failure.
-/
import Ouroboros.Machine.Host

namespace Ouroboros

namespace HostRequest

/-- whether it is a program that is to run -/
def runs : HostRequest → Bool
  | .exec .. | .execSource .. => true
  | _ => false

/-- what is wrong, when a call has failed or a program has -/
def failures : (r : HostRequest) → r.Answer → List Diagnostic
  | .call .., (.error d : Except Diagnostic Value) => [d]
  | .exec .., (.error ds : Outcome) | .execSource .., (.error ds : Outcome) => ds
  | .call .., (.ok _ : Except Diagnostic Value) | .exec .., (.ok _ : Outcome) | .execSource .., (.ok _ : Outcome) => []
  | .register .., _ | .define .., _ | .set .., _ | .lookUp .., _ | .core, _ | .global, _ | .newScope _, _ | .kept, _
  | .remember _, _ => []

end HostRequest

namespace HostAction

/-- whatever it is answered, the action asks only what `Q` admits -/
def AsksOnly (Q : HostRequest → Prop) : HostAction → Prop
  | .answer _ | .fail _ => True
  | .ask r next => Q r ∧ ∀ a, (next a).AsksOnly Q

theorem AsksOnly.mono {Q Q' : HostRequest → Prop} (hQ : ∀ r, Q r → Q' r) {action : HostAction} (h : action.AsksOnly Q) :
    action.AsksOnly Q' := by
  induction action with
  | answer | fail => trivial
  | ask r next ih => exact ⟨hQ r h.1, fun a => ih a (h.2 a)⟩

/-- as long as the answers are as `A` says, the action asks only what `Q` admits -/
def AsksGiven (A : (r : HostRequest) → r.Answer → Prop) (Q : HostRequest → Prop) : HostAction → Prop
  | .answer _ | .fail _ => True
  | .ask r next => Q r ∧ ∀ a, A r a → (next a).AsksGiven A Q

/-- when a call has failed that the action makes, or a program that it runs, the action fails with that -/
def PassesOn : HostAction → Prop
  | .answer _ | .fail _ => True
  | .ask r next => ∀ a, (r.failures a = [] ∨ ∃ d ∈ r.failures a, next a = .fail d) ∧ (next a).PassesOn

end HostAction

/-- calls a function, and gets over its failure -/
def HostOperation.trying : HostOperation
  | [] => .answer .unit
  | f :: args => .ask (.call f args) fun a : Except Diagnostic Value =>
    match a with
    | .ok v => .answer v
    | .error _ => .answer (.bool false)

/-- calls a function, and fails when the function fails -/
def HostOperation.relaying : HostOperation
  | [] => .answer .unit
  | f :: args => .ask (.call f args) fun a : Except Diagnostic Value =>
    match a with
    | .ok v => .answer v
    | .error d => .fail d

theorem HostOperation.passesOn_relaying (args : List Value) : (relaying args).PassesOn := by
  cases args with
  | nil => trivial
  | cons f args =>
    rintro (d | v)
    · exact ⟨.inr ⟨d, List.mem_singleton_self d, rfl⟩, trivial⟩
    · exact ⟨.inl rfl, trivial⟩

/-- the values and scopes that are admitted at each stage of a run, and the stages behind a stage -/
structure HostLaw (ι : Type) where
  later : ι → ι → Prop
  value : ι → Value → Prop
  scope : ι → ScopeId → Prop

variable {ι : Type}

namespace HostRequest

/-- the question hands out only what is admitted -/
def Meets (L : HostLaw ι) (i : ι) : HostRequest → Prop
  | .call f args => L.value i f ∧ ∀ v ∈ args, L.value i v
  | .exec _ scope => ∀ s, scope = some s → L.scope i s
  | .define scope _ v | .set scope _ v => L.scope i scope ∧ L.value i v
  | .lookUp scope _ | .newScope scope => L.scope i scope
  | .remember vs => ∀ v ∈ vs, L.value i v
  | .execSource .. | .register .. | .core | .global | .kept => True

/-- the answer holds only what is admitted -/
def AnswerMeets (L : HostLaw ι) (i : ι) : (r : HostRequest) → r.Answer → Prop
  | .call .., (a : Except Diagnostic Value) => ∀ v, a = .ok v → L.value i v
  | .exec .., (a : Outcome) | .execSource .., (a : Outcome) => ∀ v, a = .ok v → L.value i v
  | .lookUp .., (o : Option Value) => ∀ v, o = some v → L.value i v
  | .core, (scope : ScopeId) | .global, (scope : ScopeId) | .newScope _, (scope : ScopeId) => L.scope i scope
  | .kept, (vs : List Value) => ∀ v ∈ vs, L.value i v
  | .set .., _ | .register .., _ | .define .., _ | .remember _, _ => True

end HostRequest

/-- as long as the answers hold only what is admitted, so does what the action hands out -/
def HostAction.Meets (L : HostLaw ι) : ι → HostAction → Prop
  | i, .answer v => L.value i v
  | _, .fail _ => True
  | i, .ask r next => r.Meets L i ∧ ∀ j, L.later i j → ∀ a, r.AnswerMeets L j a → (next a).Meets L j

/-- from a stage on, the operation hands out only what is admitted when it is given only that -/
def HostOperation.Meets (L : HostLaw ι) (i : ι) (operation : HostOperation) : Prop :=
  ∀ j, L.later i j → ∀ args : List Value, (∀ v ∈ args, L.value j v) → (operation args).Meets L j

theorem HostOperation.Meets.mono {L : HostLaw ι} (htrans : ∀ {i j k}, L.later i j → L.later j k → L.later i k) {i j : ι}
    {operation : HostOperation} (h : operation.Meets L i) (hij : L.later i j) : operation.Meets L j :=
  fun k hk => h k (htrans hij hk)

end Ouroboros
