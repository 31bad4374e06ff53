/-
What a loop does with the integers of its range.

A loop runs its body once for each integer, until one run fails or leaves the function. `Laps` are the runs that ran
through, one after the other, and `Laps.rounds` says how a loop goes on behind any of them: it runs through as well, or it
ends as the first run that does not run through.

`Eval.loop_visits` is the main result, for loops whose body always runs through: as many laps as there are integers in the
range, each in a scope of its own that binds the variable to the number for the next integer (`enterLap_opens`). The counter
never leaves the integers of 64 bits, between which all ranges of programs are (`isInt64_range`). The number is a float, so
beyond 2^53 it is the one nearest to the integer (`Number.Stands`), and `Eval.loop_not_exact` has a loop that shows one
float to its body twice.
-/
import Ouroboros.Session
import Ouroboros.Proofs.Nearest
import Ouroboros.Proofs.Execution.Values

namespace Ouroboros

namespace Eval

/-! ## Laps -/

/-- the step ends with a value: it does not fail, and does not leave the function -/
def RunsThrough (x : Eval Completion) (m : Machine) : Prop := ∃ v m', x m = (.ok (.normal v), m')

variable {body : Int → Eval Completion} {first : Int} {n : Nat} {m m' : Machine}

theorem rounds_next {v : Value} (h : body first m = (.ok (.normal v), m')) :
    rounds body (n + 1) first m = rounds body n (first + 1) m' := by
  simp only [rounds, Action.bind_apply, h]

theorem rounds_stops (h : ¬RunsThrough (body first) m) : rounds body (n + 1) first m = body first m := by
  rcases hrun : body first m with ⟨d | v | v, m'⟩
  · simp only [rounds, Action.bind_apply, hrun]
  · exact absurd ⟨v, m', hrun⟩ h
  · simp only [rounds, Action.bind_apply, hrun]
    rfl

/-- `Laps body first k m m'`: for the `k` integers from `first` on, the body ran through, one time after the other, and took
`m` to `m'` -/
inductive Laps (body : Int → Eval Completion) (first : Int) : Nat → Machine → Machine → Prop
  | none (m : Machine) : Laps body first 0 m m
  | next {k : Nat} {m m₁ m₂ : Machine} {v : Value} : Laps body first k m m₁ →
      body (first + k) m₁ = (.ok (.normal v), m₂) → Laps body first (k + 1) m m₂

namespace Laps

variable {k : Nat} {m₁ : Machine}

/-- each of the laps is there, between those in front of it and those behind it -/
theorem lap (h : Laps body first n m m') (hk : k < n) : ∃ m₁ v m₂, Laps body first k m m₁ ∧
    body (first + k) m₁ = (.ok (.normal v), m₂) ∧ Laps body first (k + 1) m m₂ := by
  induction h with
  | none => exact absurd hk (Nat.not_lt_zero k)
  | @next n m m₁ m₂ v h hrun ih =>
    rcases Nat.lt_succ_iff_lt_or_eq.mp hk with hlt | rfl
    · exact ih hlt
    · exact ⟨m₁, v, m₂, h, hrun, h.next hrun⟩

/-- a loop goes on behind its laps with further ones, until it is done or one does not run through -/
theorem rounds (h : Laps body first k m m₁) (n : Nat) : ∃ (i : Nat) (m₂ : Machine), Laps body first (k + i) m m₂ ∧
    (i = n ∧ Eval.rounds body n (first + k) m₁ = (.ok (.normal .unit), m₂) ∨
      i < n ∧ Eval.rounds body n (first + k) m₁ = body (first + (k + i : Nat)) m₂ ∧
        ¬RunsThrough (body (first + (k + i : Nat))) m₂) := by
  induction n generalizing k m₁ with
  | zero => exact ⟨0, m₁, h, .inl ⟨rfl, rfl⟩⟩
  | succ n ih =>
    by_cases hthrough : RunsThrough (body (first + k)) m₁
    · obtain ⟨v, m₂, hrun⟩ := hthrough
      obtain ⟨i, m₃, hlaps, hends⟩ := ih (h.next hrun)
      have hcounter : first + ((k + 1 : Nat) : Int) = first + k + 1 := by omega
      have hindex : k + 1 + i = k + (i + 1) := by omega
      rw [hindex] at hlaps hends
      rw [hcounter, ← rounds_next hrun] at hends
      refine ⟨i + 1, m₃, hlaps, ?_⟩
      rcases hends with ⟨rfl, hdone⟩ | ⟨hlt, hstops⟩
      · exact .inl ⟨rfl, hdone⟩
      · exact .inr ⟨Nat.succ_lt_succ hlt, hstops⟩
    · exact ⟨0, m₁, h, .inr ⟨Nat.succ_pos n, rounds_stops hthrough, hthrough⟩⟩

end Laps

/-! ## Scopes of laps -/

/-- opens the scope of a lap, and binds the variable in it -/
def enterLap (scope : ScopeId) (var : Bytes) (i : Int) : Eval ScopeId := do
  let inner ← newScope scope
  define inner var (.number (Number.ofInt i))
  return inner

/-- what a loop does for one integer -/
def lap (call : Call) (scope : ScopeId) (var : Bytes) (body : List Stmt) (i : Int) : Eval Completion := do
  let inner ← enterLap scope var i
  stmts call inner body .unit

/-- from `m` to `m'`, a scope that was not there before is opened inside `scope`; it binds the variable to the number and
nothing else, and all other scopes are as they were -/
structure Opens (scope : ScopeId) (var : Bytes) (num : Number) (inner : ScopeId) (m m' : Machine) : Prop where
  own : m.world.store.scopes[inner]? = none
  binds : m'.world.store.scopes[inner]? = some ⟨some scope, [(var, .number num)]⟩
  others : ∀ id, id ≠ inner → m'.world.store.scopes[id]? = m.world.store.scopes[id]?

theorem enterLap_opens (scope : ScopeId) (var : Bytes) (i : Int) (m : Machine) :
    ∃ inner m', enterLap scope var i m = (.ok inner, m') ∧ Opens scope var (Number.ofInt i) inner m m' := by
  refine ⟨m.world.store.scopes.size, _, rfl, ?_, ?_, fun id hid => ?_⟩
  · exact Array.getElem?_size
  · change ((m.world.store.scopes.push ⟨some scope, []⟩).modify m.world.store.scopes.size _)[m.world.store.scopes.size]? = _
    rw [Array.getElem?_modify, if_pos rfl, Array.getElem?_push_size]
    rfl
  · simp [Store.define, Array.getElem?_modify, Array.getElem?_push, hid, hid.symm]

theorem stmt_loop {call : Call} {scope : ScopeId} {bounds : Expr} {a b : Int} {m m₀ : Machine} (pos : Pos) (var : Bytes)
    (bodyPos : Pos) (body : List Stmt) (hbounds : expr call scope bounds m = (.ok (.range a b), m₀)) :
    stmt call scope (.loop pos var bounds bodyPos body) m =
      (do let c ← rounds (lap call scope var body) (b - a).toNat a; return (scope, c) : Eval (ScopeId × Completion)) m₀ := by
  simp only [stmt, Action.bind_apply, hbounds]
  rfl

/-! ## Loops -/

/-- the integer has 64 bits -/
def IsInt64 (i : Int) : Prop := -Decimal.int64Bound ≤ i ∧ i < Decimal.int64Bound

theorem isInt64_of_int64? {f : Float} {i : Int} (h : Decimal.int64? f = some i) : IsInt64 i := by
  unfold Decimal.int64? at h
  split at h
  · split at h
    · rename_i hfits
      cases h
      exact hfits
    · cases h
  · cases h

/-- ranges are between integers of 64 bits -/
theorem isInt64_range (pos : Pos) (low high : Value) :
    Gives (fun v => ∀ a b, v = .range a b → IsInt64 a ∧ IsInt64 b) (range pos low high) := by
  cases ranged low high with
  | range _ hi hj h =>
    rw [h]
    refine .pure fun a b hab => ?_
    cases hab
    exact ⟨isInt64_of_int64? hi, isInt64_of_int64? hj⟩
  | fault _ h =>
    rw [h]
    exact .fail _

/-- From `m` to `m'`, a body visits the integers from `a` up to, not including, `b`: it runs once for each, in order, and
the counter is an integer of 64 bits all the time. Each run is in a scope of its own, opened for it inside the loop's; there
the variable is a number that has to do with the integer as `Is` says. -/
structure Visits (Is : Number → Int → Prop) (call : Call) (scope : ScopeId) (var : Bytes) (body : List Stmt) (a b : Int)
    (m m' : Machine) : Prop where
  laps : Laps (lap call scope var body) a (max 0 (b - a)).toNat m m'
  counts : ∀ k : Nat, k ≤ max 0 (b - a) → IsInt64 (a + k)
  binds : ∀ k : Nat, k < max 0 (b - a) → ∃ m₁ inner num m₂ v m₃, Laps (lap call scope var body) a k m m₁ ∧
    enterLap scope var (a + k) m₁ = (.ok inner, m₂) ∧ Opens scope var num inner m₁ m₂ ∧ Is num (a + k) ∧
    stmts call inner body .unit m₂ = (.ok (.normal v), m₃) ∧ Laps (lap call scope var body) a (k + 1) m m₃

/-- **A loop visits each integer of its range once.** -/
theorem loop_visits {call : Call} {scope : ScopeId} {bounds : Expr} {a b : Int} {m m₀ : Machine} (pos : Pos) (var : Bytes)
    (bodyPos : Pos) (body : List Stmt) (hbounds : expr call scope bounds m = (.ok (.range a b), m₀))
    (ha : IsInt64 a) (hb : IsInt64 b)
    (hbody : ∀ (k : Nat) (m₁ : Machine), Laps (lap call scope var body) a k m₀ m₁ → a + k < b →
      RunsThrough (lap call scope var body (a + k)) m₁) :
    ∃ m', stmt call scope (.loop pos var bounds bodyPos body) m = (.ok (scope, .normal .unit), m') ∧
      Visits Number.Stands call scope var body a b m₀ m' := by
  have hcounts : ∀ k : Nat, k ≤ max 0 (b - a) → IsInt64 (a + k) := by
    intro k hk
    simp only [IsInt64, Decimal.int64Bound] at ha hb ⊢
    omega
  have hcount : (max 0 (b - a)).toNat = (b - a).toNat := by omega
  have hnone : Laps (lap call scope var body) a 0 m₀ m₀ := .none m₀
  obtain ⟨i, m', hlaps, hends⟩ := hnone.rounds (b - a).toNat
  simp only [Nat.zero_add, Int.natCast_zero, Int.add_zero] at hlaps hends
  rcases hends with ⟨rfl, hdone⟩ | ⟨hlt, -, hstops⟩
  · refine ⟨m', ?_, hcount ▸ hlaps, hcounts, fun k hk => ?_⟩
    · rw [stmt_loop pos var bodyPos body hbounds]
      simp only [Action.bind_apply, hdone]
      rfl
    · obtain ⟨m₁, v, m₃, hfront, hrun, hbehind⟩ := hlaps.lap (k := k) (by omega)
      obtain ⟨inner, m₂, henter, hopens⟩ := enterLap_opens scope var (a + k) m₁
      obtain ⟨hlow, hhigh⟩ := hcounts k (by omega)
      refine ⟨m₁, inner, _, m₂, v, m₃, hfront, henter, hopens, Number.stands_ofInt hlow hhigh, ?_, hbehind⟩
      simpa only [lap, Action.bind_apply, henter] using hrun
  · exact absurd (hbody i m' hlaps (by omega)) hstops

/-- a range of two integers, of which no float is the second -/
def beyond : Expr := .range .unknown (.number .unknown 9007199254740992 true (text "9007199254740992"))
  (.number .unknown 9007199254740994 true (text "9007199254740994"))

/-- prints the variable `i` -/
def printing : List Stmt := [.expr .unknown (.call .unknown (.ident .unknown (text "print")) [.ident .unknown (text "i")])]

theorem runsThrough_printing (k : Nat) (m₁ : Machine)
    (h : Laps (lap apply 1 (text "i") printing) 9007199254740992 k (Machine.start .fresh 10) m₁)
    (hk : (9007199254740992 + k : Int) < 9007199254740994) :
    RunsThrough (lap apply 1 (text "i") printing (9007199254740992 + k)) m₁ := by
  cases h with
  | none => exact ⟨_, _, rfl⟩
  | next h hrun =>
    cases h with
    | none =>
      obtain rfl := congrArg Prod.snd hrun
      exact ⟨_, _, rfl⟩
    | next h hrun => omega

/-- a loop in the global scope that prints both integers of the range -/
theorem loop_visits_beyond :
    expr apply 1 beyond (Machine.start .fresh 10) =
      (.ok (.range 9007199254740992 9007199254740994), Machine.start .fresh 10) ∧
    IsInt64 9007199254740992 ∧ IsInt64 9007199254740994 ∧
    (∀ (k : Nat) (m₁ : Machine), Laps (lap apply 1 (text "i") printing) 9007199254740992 k (Machine.start .fresh 10) m₁ →
      (9007199254740992 + k : Int) < 9007199254740994 →
      RunsThrough (lap apply 1 (text "i") printing (9007199254740992 + k)) m₁) ∧
    ∃ m', stmt apply 1 (.loop .unknown (text "i") beyond .unknown printing) (Machine.start .fresh 10) =
        (.ok (1, .normal .unit), m') ∧
      Visits Number.Stands apply 1 (text "i") printing 9007199254740992 9007199254740994 (Machine.start .fresh 10) m' :=
  ⟨rfl, ⟨by decide, by decide⟩, ⟨by decide, by decide⟩, runsThrough_printing,
    loop_visits .unknown (text "i") .unknown printing (m := Machine.start .fresh 10) rfl ⟨by decide, by decide⟩
      ⟨by decide, by decide⟩ runsThrough_printing⟩

/-- the loop prints one number twice, for the second integer is rounded to the first -/
theorem loop_not_exact :
    expr apply 1 beyond (Machine.start .fresh 10) =
      (.ok (.range 9007199254740992 9007199254740994), Machine.start .fresh 10) ∧
    (∀ (k : Nat) (m₁ : Machine), Laps (lap apply 1 (text "i") printing) 9007199254740992 k (Machine.start .fresh 10) m₁ →
      (9007199254740992 + k : Int) < 9007199254740994 →
      RunsThrough (lap apply 1 (text "i") printing (9007199254740992 + k)) m₁) ∧
    (stmt apply 1 (.loop .unknown (text "i") beyond .unknown printing) (Machine.start .fresh 10)).2.world.record =
      #[.out (text "9007199254740992\n"), .out (text "9007199254740992\n")] ∧
    ∀ m', ¬Visits (fun num i => num.isInt = true ∧ Decimal.integer? num.value = some i) apply 1 (text "i") printing
      9007199254740992 9007199254740994 (Machine.start .fresh 10) m' := by
  refine ⟨rfl, runsThrough_printing, rfl, fun m' h => ?_⟩
  obtain ⟨m₁, inner, num, m₂, v, m₃, -, -, -, ⟨-, hnum⟩, -⟩ := h.binds 1 (by decide)
  have hstands : (Number.ofInt 9007199254740993).Stands 9007199254740993 := Number.stands_ofInt (by decide) (by decide)
  have hexact := hstands.exact ⟨num.value, hnum⟩
  exact absurd hexact (by decide +kernel)

end Eval

end Ouroboros
