/-
Every expression of the grammar is read.

A chain of operators is read from left to right while its derivation nests to the left, so a level with operators is
understood when its reader comes to where the loop has the chain as its left operand. `binds` orders the signs that can
continue an expression by strength. `understood_of_derives` is the induction on derivations.
-/
import Ouroboros.Proofs.Parsing.Completing

namespace Ouroboros

namespace Parse

open Grammar

/-- how tightly a token binds what stands in front of it; zero for tokens that do not continue an expression -/
def binds : TokenKind → Nat
  | .greater => 1
  | .dots => 2
  | .plus | .minus => 3
  | .star | .slash => 4
  | .leftParen => 5
  | _ => 0

/-- how tightly the operators of a level bind -/
def operatorStrength : Level → Nat
  | .comparison => 1
  | .additive => 3
  | _ => 4

theorem binds_of_operator {l : Level} {k : TokenKind} {op : BinaryOp} (h : Operator l k op) :
    binds k = operatorStrength l := by
  cases h <;> rfl

section Chains

variable {P : TokenKind → Prop} {n : Nat} {ts us : List Token} {a b : Expr} {operand : Reader Expr}
  {op? : TokenKind → Option BinaryOp} {l : Level}

/-- a chain is read up to where its derivation has its left operand -/
theorem Prepares.binary [Idle operand] (hop : Operators l op?)
    (h : Prepares P n ts a (chain operand op?) (chainRest operand op?)) {t : Token} {op : BinaryOp}
    (ht : Operator l t.kind op) (hP : P t.kind) (hb : Completes P n us b operand) :
    Prepares P n (ts ++ t :: us) (.binary t.pos op a b) (chain operand op?) (chainRest operand op?) := by
  cases n with
  | zero => exact Prepares.zero (by simp)
  | succ n =>
    refine h.round (fun b => .binary t.pos op a b) (fun k ws p ds => ?_) (hb.mono (Nat.le_succ n)) hP
    rw [chainRest, peekKind_bind, peek_cons, (hop t.kind op).2 ht]
    rfl

theorem chainRest_end {k : Nat} {a : Expr} {ws : List Token} (h : op? (nextKind ws) = none) (p : Pos)
    (ds : List Diagnostic) : chainRest operand op? k a ⟨ws, p, ds⟩ = (.ok a, ⟨ws, p, ds⟩) := by
  cases k with
  | zero => rfl
  | succ k =>
    rw [chainRest, peekKind_bind, peek_kind, h]
    rfl

end Chains

/-- any token may follow -/
abbrev Anything : TokenKind → Prop := fun _ => True

/-- tokens that bind less tightly than `k` may follow -/
abbrev Below (k : Nat) : TokenKind → Prop := fun t => binds t < k

/-- what is known of the reader of a phrase: at levels that a loop reads, that it comes to that loop -/
def Understood : (s : Phrase) → List Token → s.Tree → Prop
  | .expr .comparison, ts, e => ∀ n, Prepares (Below 2) n ts e (comparison (exprWithin n))
    (chainRest (span (exprWithin n)) compareOp?)
  | .expr .range, ts, e => ∀ n, Completes (Below 2) n ts e (span (exprWithin n))
  | .expr .additive, ts, e => ∀ n, Prepares (Below 4) n ts e (sum (exprWithin n))
    (chainRest (product (exprWithin n)) sumOp?)
  | .expr .multiplicative, ts, e => ∀ n, Prepares (Below 5) n ts e (product (exprWithin n))
    (chainRest (unary (exprWithin n)) productOp?)
  | .expr .unary, ts, e => ∀ n, Completes (Below 5) n ts e (unary (exprWithin n))
  | .expr .call, ts, e => ∀ n, Prepares Anything n ts e (call (exprWithin n)) (callRest (exprWithin n))
  | .expr .primary, ts, e => ∀ n, Completes Anything n ts e (primary (exprWithin n))
  | .items, ts, es => ∀ n, Separated (IsItem (Below 1) n (exprWithin (n + 1))) ts es
  | .args, ts, es => ∀ n, Listed (IsItem (Below 1) n (exprWithin (n + 1))) ts es

section Levels

variable {ts us : List Token} {e : Expr} {n : Nat}

theorem Understood.comparison (h : Understood (.expr .comparison) ts e) (n : Nat) :
    Completes (Below 1) n ts e (exprWithin (n + 1)) := by
  refine (h n).completes (fun k ws p ds hws => chainRest_end ?_ p ds) fun k hk => Nat.lt_succ_of_lt hk
  revert hws
  cases nextKind ws <;> simp [Below, binds, compareOp?]

theorem Understood.additive (h : Understood (.expr .additive) ts e) (n : Nat) :
    Completes (Below 3) n ts e (sum (exprWithin n)) := by
  refine (h n).completes (fun k ws p ds hws => chainRest_end ?_ p ds) fun k hk => Nat.lt_succ_of_lt hk
  revert hws
  cases nextKind ws <;> simp [Below, binds, sumOp?]

theorem Understood.multiplicative (h : Understood (.expr .multiplicative) ts e) (n : Nat) :
    Completes (Below 4) n ts e (product (exprWithin n)) := by
  refine (h n).completes (fun k ws p ds hws => chainRest_end ?_ p ds) fun k hk => Nat.lt_succ_of_lt hk
  revert hws
  cases nextKind ws <;> simp [Below, binds, productOp?]

theorem Understood.call (h : Understood (.expr .call) ts e) (n : Nat) :
    Completes (Below 5) n ts e (call (exprWithin n)) := by
  refine (h n).completes (fun k ws p ds hws => ?_) fun k _ => trivial
  cases k with
  | zero => rfl
  | succ k =>
    rw [callRest, peekKind_bind, peek_kind, if_neg]
    · rfl
    · intro hk
      rw [hk] at hws
      exact absurd hws (by decide)

/-- a sum that no sign of a range follows is what the reader of ranges reads -/
theorem Understood.noRange (h : Understood (.expr .additive) ts e) : Understood (.expr .range) ts e := by
  intro n
  have hrest : Completes (Below 2) n [] e (rangeRest (sum (exprWithin n)) e) := by
    refine ⟨fun _ rest p ds hrest => ?_, fun us hus _ => ?_⟩
    · rw [rangeRest, peekKind_bind, List.nil_append, peek_kind, if_neg]
      · rfl
      · intro hk
        rw [hk] at hrest
        exact absurd hrest (by decide)
    · rw [List.prefix_nil.1 hus]
      exact Idle.ranOut
  have := (h.additive n).bind hrest (fun k hk => Nat.lt_succ_of_lt hk) ⟨.endOfInput, by decide⟩
  rwa [List.append_nil] at this

theorem Understood.range {a b : Expr} {t : Token} (ha : Understood (.expr .additive) ts a) (ht : t.kind = .dots)
    (hb : Understood (.expr .additive) us b) : Understood (.expr .range) (ts ++ t :: us) (.range t.pos a b) := by
  intro n
  have hhigh : Completes (Below 2) n us (Expr.range t.pos a b)
      (sum (exprWithin n) >>= fun b => pure (Expr.range t.pos a b)) :=
    ((hb.additive n).map fun b => Expr.range t.pos a b).weaken fun k hk => Nat.lt_succ_of_lt hk
  have hrest : Completes (Below 2) n (t :: us) (.range t.pos a b) (rangeRest (sum (exprWithin n)) a) := by
    refine (Completes.cons (fun ws p ds => ?_) hhigh).mono (Nat.le_succ n)
    rw [rangeRest, peekKind_bind, peek_cons, if_pos ht]
    rfl
  refine (ha.additive n).bind hrest (fun k _ => ?_) ⟨.endOfInput, by decide⟩
  show binds t.kind < 3
  rw [ht]
  decide

/-- a call does not start with `await` -/
theorem call_head {s : Phrase} {ts : List Token} {x : s.Tree} (h : DerivesExpr s ts x)
    (hs : s = .expr .call ∨ s = .expr .primary) : ∃ t us, ts = t :: us ∧ t.kind ≠ .awaitWord := by
  induction h with
  | @tighter l m ts e hl h ih =>
    rcases hs with hs | hs <;> cases hs <;> cases hl
    exact ih (Or.inr rfl)
  | call _ _ _ _ ihf _ =>
    obtain ⟨t, us, rfl, ht⟩ := ihf hs
    exact ⟨t, _, rfl, ht⟩
  | number ht | string ht | ident ht | group ht _ _ _ => exact ⟨_, _, rfl, by rw [ht]; decide⟩
  | @binary l m ts us t op a b hl ha ht hb iha ihb => rcases hs with hs | hs <;> cases hs <;> cases ht
  | range _ _ _ _ _ | await _ _ _ | one _ _ | more _ _ _ _ _ | noArgs | args _ _ =>
    rcases hs with hs | hs <;> cases hs

theorem Understood.notAwaited (hd : DerivesExpr (.expr .call) ts e) (h : Understood (.expr .call) ts e) :
    Understood (.expr .unary) ts e := by
  intro n
  obtain ⟨t, us, rfl, ht⟩ := call_head hd (Or.inl rfl)
  refine Completes.at (fun ws p ds => ?_) (h.call n)
  rw [unary, peekKind_bind, peek_cons, if_neg ht]

theorem Understood.await {t : Token} (ht : t.kind = .awaitWord) (h : Understood (.expr .call) ts e) :
    Understood (.expr .unary) (t :: ts) (.await t.pos e) := by
  intro n
  refine (Completes.cons (fun ws p ds => ?_) ((h.call n).map fun e => Expr.await t.pos e)).mono (Nat.le_succ n)
  rw [unary, peekKind_bind, peek_cons, if_pos ht]
  rfl

/-- the parentheses of a call behind its callee -/
theorem Understood.calling {f : Expr} {es : List Expr} {t u : Token} (hf : Understood (.expr .call) ts f)
    (ht : t.kind = .leftParen) (hes : Understood .args us es) (hu : u.kind = .rightParen) :
    Understood (.expr .call) (ts ++ t :: (us ++ [u])) (.call t.pos f es) := by
  intro n
  cases n with
  | zero => exact Prepares.zero (by simp)
  | succ n =>
    have hargs : Completes Anything n (us ++ [u]) es
        (items (exprWithin (n + 1)) >>= fun es => need .rightParen >>= fun _ => pure es) :=
      (Completes.items (by decide) (by decide) (hes n)).bind (Completes.need hu (Completes.pure es)) (fun _ _ => hu)
        ⟨.endOfInput, trivial⟩
    refine (hf (n + 1)).round (fun es => Expr.call t.pos f es) (fun k ws p ds => ?_) hargs trivial
    rw [callRest, peekKind_bind, peek_cons, if_pos ht]
    simp only [bind_assoc, pure_bind]
    rfl

theorem Understood.leaf {t : Token} {e : Expr} (hstep : ∀ n ws p ds, primary (exprWithin n) ⟨t :: ws, p, ds⟩ =
    (pure e : Reader Expr) ⟨ws, p, ds⟩) : Understood (.expr .primary) [t] e :=
  fun n => (Completes.cons (hstep n) (Completes.pure e)).mono (Nat.le_succ n)

theorem Understood.group {t u : Token} (ht : t.kind = .leftParen) (h : Understood (.expr .comparison) ts e)
    (hu : u.kind = .rightParen) : Understood (.expr .primary) (t :: (ts ++ [u])) (.group t.pos e) := by
  intro n
  cases n with
  | zero => exact Completes.zero (by simp)
  | succ n =>
    have hinner : Completes Anything n (ts ++ [u]) (Expr.group t.pos e)
        (exprWithin (n + 1) >>= fun e => need .rightParen >>= fun _ => pure (Expr.group t.pos e)) := by
      refine (h.comparison n).bind (Completes.need hu (Completes.pure _)) (fun k _ => ?_) ⟨.endOfInput, trivial⟩
      show binds u.kind < 1
      rw [hu]
      decide
    refine Completes.cons (fun ws p ds => ?_) hinner
    rw [primary_apply, peek_cons, ht]
    rfl

end Levels

/-- an expression does not start with a closing parenthesis -/
theorem item_head {l : Level} {ts : List Token} {e : Expr} (h : DerivesExpr (.expr l) ts e) :
    ∃ t us, ts = t :: us ∧ t.kind ≠ .rightParen := by
  obtain ⟨t, us, rfl, ht⟩ := h.head
  refine ⟨t, us, rfl, ?_⟩
  intro hk
  rw [hk] at ht
  exact absurd ht (by decide)

/-- **Expressions are understood.** Every phrase of an expression is read as its tree. -/
theorem understood_of_derives {s : Phrase} {ts : List Token} {x : s.Tree} (h : DerivesExpr s ts x) :
    Understood s ts x := by
  induction h with
  | @tighter l m ts e hl h ih =>
    cases l <;> cases hl
    · exact fun n => Prepares.first (ih n)
    · exact ih.noRange
    · exact fun n => Prepares.first (ih.multiplicative n)
    · exact fun n => Prepares.first (ih n)
    · exact ih.notAwaited h
    · exact fun n => Prepares.first (ih n)
  | @binary l m ts us t op a b hl ha ht hb iha ihb =>
    have hbinds := binds_of_operator ht
    cases l <;> cases hl
    · exact fun n => (iha n).binary operators_compare ht (by rw [Below, hbinds]; decide) (ihb n)
    · cases ht
    · exact fun n => (iha n).binary operators_sum ht (by rw [Below, hbinds]; decide) (ihb.multiplicative n)
    · exact fun n => (iha n).binary operators_product ht (by rw [Below, hbinds]; decide) (ihb n)
    · cases ht
    · cases ht
  | range _ ht _ iha ihb => exact iha.range ht ihb
  | await ht _ ih => exact ih.await ht
  | call _ ht _ hu ihf ihes => exact ihf.calling ht ihes hu
  | number ht =>
    refine Understood.leaf fun n ws p ds => ?_
    rw [primary_apply, peek_cons, ht]
    rfl
  | string ht =>
    refine Understood.leaf fun n ws p ds => ?_
    rw [primary_apply, peek_cons, ht]
    rfl
  | ident ht =>
    refine Understood.leaf fun n ws p ds => ?_
    rw [primary_apply, peek_cons, ht]
    rfl
  | group ht _ hu ih => exact Understood.group ht ih hu
  | one h ih => exact fun n => .one ⟨item_head h, ih.comparison n⟩
  | more h ht _ ih ihes => exact fun n => .more ⟨item_head h, ih.comparison n⟩ ht (ihes n)
  | noArgs => exact fun n => .none
  | args _ ih => exact fun n => .some (ih n)

end Parse

end Ouroboros
