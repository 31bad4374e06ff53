/-
What it takes to read every phrase of the grammar.

`Completes P n ts a r` says two things of a step `r` with a bound `n` on its nesting:
- in front of a token that `P` admits, the tokens `ts` are read as `a`, and exactly they;
- on a start of `ts` the step runs out of tokens: nothing is recorded, and it ends with a result or with an incomplete
  fault at the end of the tokens.
Steps are put together by `Completes.bind`. A loop gets a weaker statement (`Prepares`): its reader comes to where the
loop has read so much and goes on.
-/
import Ouroboros.Proofs.Parsing.Sound

namespace Ouroboros

namespace Parse

open Grammar

variable {α β : Type}

/-! ## Running out of tokens -/

/-- the kind of the first of some tokens, or the given one when there are none -/
def leadKind (ts : List Token) (k : TokenKind) : TokenKind := (ts.head?.map Token.kind).getD k

/-- the kind of the next token -/
def nextKind (ts : List Token) : TokenKind := leadKind ts .endOfInput

theorem peek_kind (ts : List Token) (p : Pos) (ds : List Diagnostic) : (Cursor.mk ts p ds).peek.kind = nextKind ts := by
  cases ts <;> rfl

theorem nextKind_append (ts us : List Token) : nextKind (ts ++ us) = leadKind ts (nextKind us) := by
  cases ts <;> rfl

/-- a start of some tokens that is not empty has the same first token -/
theorem nextKind_of_start {us ts : List Token} (h : us <+: ts) (hne : us ≠ []) (k : TokenKind) :
    nextKind us = leadKind ts k := by
  obtain ⟨vs, rfl⟩ := h
  cases us with
  | nil => exact absurd rfl hne
  | cons u us => rfl

/-- reading ended at the end of the tokens, with a result or with an incomplete fault, and recorded nothing -/
def RanOut (p : Pos) (ds : List Diagnostic) (out : Except Diagnostic α × Cursor) : Prop :=
  out.2 = ⟨[], p, ds⟩ ∧ ∀ e, out.1 = .error e → e.incomplete = true

/-- at the end of the tokens the step gives a result or an incomplete fault, and changes nothing -/
class Idle (r : Reader α) : Prop where
  ranOut : ∀ p ds, RanOut p ds (r ⟨[], p, ds⟩)

theorem Reads.idle {L : Language α} {r : Reader α} (h : Reads L r) : Idle r :=
  ⟨fun p ds => (h.spec ⟨[], p, ds⟩ (by simp [Cursor.Proper])).idle rfl⟩

theorem RanOut.bind {r : Reader α} {f : α → Reader β} [∀ a, Idle (f a)] {c : Cursor} {p : Pos} {ds : List Diagnostic}
    (h : RanOut p ds (r c)) : RanOut p ds ((r >>= f) c) := by
  rw [Action.bind_apply]
  rcases hr : r c with ⟨e | a, d⟩ <;> rw [hr] at h
  · exact ⟨h.1, fun e' he => h.2 e' (by simpa using he)⟩
  · obtain rfl : d = ⟨[], p, ds⟩ := h.1
    exact Idle.ranOut p ds

instance {r : Reader α} {f : α → Reader β} [Idle r] [∀ a, Idle (f a)] : Idle (r >>= f) :=
  ⟨fun p ds => (Idle.ranOut (r := r) p ds).bind⟩

instance (a : α) : Idle (pure a : Reader α) := ⟨fun _ _ => ⟨rfl, fun e he => by simp at he⟩⟩

instance : Idle remaining := ⟨fun _ _ => ⟨rfl, fun e he => by cases he⟩⟩

instance : Idle peekKind := ⟨fun _ _ => ⟨rfl, fun e he => by cases he⟩⟩

instance : Idle advance := ⟨fun _ _ => ⟨rfl, fun e he => by cases he⟩⟩

instance {c : Prop} [Decidable c] {r r' : Reader α} [Idle r] [Idle r'] : Idle (if c then r else r') := by
  split <;> infer_instance

instance (k : TokenKind) : Idle (need k) := by
  refine ⟨fun p ds => ?_⟩
  rw [need_apply]
  split
  · exact ⟨rfl, fun e he => by cases he⟩
  · refine ⟨rfl, fun e he => ?_⟩
    cases he
    rfl

instance (k : TokenKind) : Idle (accept k) := by
  unfold accept
  infer_instance

instance (depth : Nat) : Idle (exprWithin depth) := (Reads.exprWithin depth).idle

instance : Idle expr := Reads.expr.idle

instance (depth : Nat) : Idle (statementWithin depth) := (Reads.statementWithin depth).idle

instance {item : Reader α} [Idle item] (k : Nat) : Idle (moreItems item k) := by
  induction k with
  | zero =>
    unfold moreItems
    infer_instance
  | succ k ih =>
    unfold moreItems
    infer_instance

instance {item : Reader α} [Idle item] : Idle (items item) := by
  unfold items
  infer_instance

instance {operand : Reader Expr} {op? : TokenKind → Option BinaryOp} [Idle operand] (k : Nat) (left : Expr) :
    Idle (chainRest operand op? k left) := by
  induction k generalizing left with
  | zero =>
    unfold chainRest
    infer_instance
  | succ k ih =>
    refine ⟨fun p ds => ?_⟩
    rw [chainRest, peekKind_bind]
    cases op? _ with
    | none => exact Idle.ranOut p ds
    | some op => exact Idle.ranOut (r := advance >>= fun _ => operand >>= fun _ => chainRest operand op? k _) p ds

instance {operand : Reader Expr} {op? : TokenKind → Option BinaryOp} [Idle operand] : Idle (chain operand op?) := by
  unfold chain
  infer_instance

instance {operand : Reader Expr} [Idle operand] (low : Expr) : Idle (rangeRest operand low) := by
  unfold rangeRest
  infer_instance

section Nested

variable {nested : Reader Expr} [Idle nested]

omit [Idle nested] in
instance : Idle (primary nested) := by
  refine ⟨fun p ds => ⟨rfl, fun e he => ?_⟩⟩
  cases he
  rfl

instance (k : Nat) (callee : Expr) : Idle (callRest nested k callee) := by
  induction k generalizing callee with
  | zero =>
    unfold callRest
    infer_instance
  | succ k ih =>
    unfold callRest
    infer_instance

instance : Idle (call nested) := by
  unfold call
  infer_instance

instance : Idle (unary nested) := by
  unfold unary
  infer_instance

instance : Idle (product nested) := by
  unfold product
  infer_instance

instance : Idle (sum nested) := by
  unfold sum
  infer_instance

instance : Idle (span nested) := by
  rw [span_eq]
  infer_instance

end Nested

/-! ## Completeness of a step -/

/-- the step reads the tokens as `a` in front of what `P` admits, and runs out of tokens on every start of them; both
as far as the bound on nesting allows -/
structure Completes (P : TokenKind → Prop) (n : Nat) (ts : List Token) (a : α) (r : Reader α) : Prop where
  reads : ts.length ≤ n → ∀ rest p ds, P (nextKind rest) → r ⟨ts ++ rest, p, ds⟩ = (.ok a, ⟨rest, p, ds⟩)
  starts : ∀ us, us <+: ts → us.length ≤ n → ∀ p ds, RanOut p ds (r ⟨us, p, ds⟩)

section Completes

variable {P Q : TokenKind → Prop} {n m : Nat} {ts us : List Token} {a : α} {b : β} {r : Reader α} {f : α → Reader β}

theorem Completes.mono (h : Completes P n ts a r) (hm : m ≤ n) : Completes P m ts a r :=
  ⟨fun hlen => h.reads (Nat.le_trans hlen hm), fun us hus hlen => h.starts us hus (Nat.le_trans hlen hm)⟩

theorem Completes.weaken (h : Completes P n ts a r) (hQ : ∀ k, Q k → P k) : Completes Q n ts a r :=
  ⟨fun hlen rest p ds hrest => h.reads hlen rest p ds (hQ _ hrest), h.starts⟩

theorem Completes.pure (a : α) : Completes P n [] a (Pure.pure a : Reader α) := by
  refine ⟨fun _ rest p ds _ => rfl, fun us hus _ => ?_⟩
  rw [List.prefix_nil.1 hus]
  exact Idle.ranOut

/-- with no nesting allowed, a phrase that is not empty has one start only -/
theorem Completes.zero [Idle r] (hne : ts ≠ []) : Completes P 0 ts a r := by
  refine ⟨fun hlen => absurd (List.length_eq_zero_iff.1 (Nat.le_zero.1 hlen)) hne, fun us _ hlen => ?_⟩
  rw [List.length_eq_zero_iff.1 (Nat.le_zero.1 hlen)]
  exact Idle.ranOut

/-- a start of two phrases is a start of the first, or the first with a start of the second -/
theorem prefix_append_cases {ws ts us : List Token} (h : ws <+: ts ++ us) :
    ws <+: ts ∨ ∃ vs, vs ≠ [] ∧ vs <+: us ∧ ws = ts ++ vs := by
  obtain ⟨xs, h⟩ := h
  rcases List.append_eq_append_iff.1 h with ⟨vs, rfl, -⟩ | ⟨vs, rfl, rfl⟩
  · exact Or.inl (List.prefix_append _ _)
  · by_cases hne : vs = []
    · subst hne
      exact Or.inl (by simp)
    · exact Or.inr ⟨vs, hne, List.prefix_append _ _, rfl⟩

/-- **Sequencing.** The second phrase, or what follows it when it is empty, must be admitted behind the first. The
tokens of the first are not needed for the nesting of the second. -/
theorem Completes.bindAfter [∀ a, Idle (f a)] (h : Completes P n ts a r) (hf : Completes Q m us b (f a))
    (hm : n ≤ m + ts.length) (hP : ∀ k, Q k → P (leadKind us k)) (hQ : ∃ k, Q k) :
    Completes Q n (ts ++ us) b (r >>= f) := by
  constructor
  · intro hlen rest p ds hrest
    rw [List.length_append] at hlen
    have hP' : P (nextKind (us ++ rest)) := by
      rw [nextKind_append]
      exact hP _ hrest
    rw [List.append_assoc, Action.bind_apply, h.reads (by omega) _ p ds hP']
    exact hf.reads (by omega) rest p ds hrest
  · intro ws hws hlen p ds
    rcases prefix_append_cases hws with hws | ⟨vs, hne, hvs, rfl⟩
    · exact (h.starts ws hws hlen p ds).bind
    · obtain ⟨k, hk⟩ := hQ
      have hP' : P (nextKind vs) := by
        rw [nextKind_of_start hvs hne k]
        exact hP k hk
      rw [List.length_append] at hlen
      rw [Action.bind_apply, h.reads (by omega) _ p ds hP']
      exact hf.starts vs hvs (by omega) p ds

theorem Completes.bind [∀ a, Idle (f a)] (h : Completes P n ts a r) (hf : Completes Q n us b (f a))
    (hP : ∀ k, Q k → P (leadKind us k)) (hQ : ∃ k, Q k) : Completes Q n (ts ++ us) b (r >>= f) :=
  h.bindAfter hf (Nat.le_add_right _ _) hP hQ

theorem Completes.map (g : α → β) (h : Completes P n ts a r) :
    Completes P n ts (g a) (r >>= fun a => Pure.pure (g a)) := by
  constructor
  · intro hlen rest p ds hrest
    rw [Action.bind_apply, h.reads hlen rest p ds hrest]
    rfl
  · intro us hus hlen p ds
    exact (h.starts us hus hlen p ds).bind

/-- a step that depends on the number of tokens left -/
theorem Completes.remaining {f : Nat → Reader α} (h : ∀ k, Completes P (min n k) ts a (f k)) :
    Completes P n ts a (remaining >>= f) := by
  constructor
  · intro hlen rest p ds hrest
    rw [remaining_bind]
    refine (h _).reads ?_ rest p ds hrest
    rw [List.length_append]
    omega
  · intro us hus hlen p ds
    rw [remaining_bind]
    exact (h _).starts us hus (Nat.le_min.2 ⟨hlen, Nat.le_refl _⟩) p ds

/-- a step that does, at a first token `t`, what another does behind it -/
theorem Completes.cons [Idle r] {t : Token} {r' : Reader α}
    (hstep : ∀ ws p ds, r ⟨t :: ws, p, ds⟩ = r' ⟨ws, p, ds⟩) (h : Completes P n ts a r') :
    Completes P (n + 1) (t :: ts) a r := by
  constructor
  · intro hlen rest p ds hrest
    rw [List.cons_append, hstep]
    exact h.reads (by simpa using hlen) rest p ds hrest
  · intro us hus hlen p ds
    cases us with
    | nil => exact Idle.ranOut p ds
    | cons u us =>
      obtain ⟨rfl, htail⟩ := List.cons_prefix_cons.1 hus
      rw [hstep]
      exact h.starts us htail (by simpa using hlen) p ds

/-- a step that does, at a first token `t`, what another does there -/
theorem Completes.at [Idle r] {t : Token} {r' : Reader α}
    (hstep : ∀ ws p ds, r ⟨t :: ws, p, ds⟩ = r' ⟨t :: ws, p, ds⟩) (h : Completes P n (t :: ts) a r') :
    Completes P n (t :: ts) a r := by
  constructor
  · intro hlen rest p ds hrest
    rw [List.cons_append, hstep]
    exact h.reads hlen rest p ds hrest
  · intro us hus hlen p ds
    cases us with
    | nil => exact Idle.ranOut p ds
    | cons u us =>
      obtain ⟨rfl, -⟩ := List.cons_prefix_cons.1 hus
      rw [hstep]
      exact h.starts _ hus hlen p ds

/-- a token that is needed -/
theorem Completes.need {k : TokenKind} {t : Token} {f : Token → Reader α} [∀ t, Idle (f t)] (ht : t.kind = k)
    (h : Completes P n ts a (f t)) : Completes P n (t :: ts) a (Parse.need k >>= f) :=
  (Completes.cons (fun ws p ds => need_bind_cons ht f ws p ds) h).mono (Nat.le_succ n)

end Completes

/-! ## Lists of items -/

section Items

variable {item : Reader α} [Idle item] {P : TokenKind → Prop} {n : Nat}

/-- behind the last item the reader of items stops -/
theorem Completes.noMoreItems (k : Nat) : Completes (· = .rightParen) n [] [] (moreItems item k) := by
  constructor
  · intro _ rest p ds hrest
    cases k with
    | zero => rfl
    | succ k =>
      rw [moreItems, Action.bind_apply, accept_apply, peek_kind, List.nil_append, if_neg (by rw [hrest]; decide)]
      rfl
  · intro us hus _ p ds
    rw [List.prefix_nil.1 hus]
    exact Idle.ranOut p ds

/-- an item, and behind it either nothing or further items -/
theorem Completes.itemThen {ts us : List Token} {a : α} {as : List α} (h : Completes P n ts a item)
    (hus : P (leadKind us .rightParen)) {k : Nat}
    (hrest : Completes (· = .rightParen) (min n k) us as (moreItems item k)) :
    Completes (· = .rightParen) (min n k) (ts ++ us) (a :: as)
      (item >>= fun a => moreItems item k >>= fun as => Pure.pure (a :: as)) := by
  refine (h.mono (Nat.min_le_left n k)).bind (hrest.map (a :: ·)) ?_ ⟨_, rfl⟩
  rintro _ rfl
  exact hus

/-- a comma and the items behind it -/
theorem Completes.comma {us : List Token} {as : List α} {t : Token} (ht : t.kind = .comma)
    (h : ∀ k, Completes (· = .rightParen) (min n k) us as
      (item >>= fun a => moreItems item k >>= fun as => Pure.pure (a :: as))) (k : Nat) :
    Completes (· = .rightParen) (min n k) (t :: us) as (moreItems item k) := by
  cases k with
  | zero => exact (Completes.zero (List.cons_ne_nil _ _)).mono (by omega)
  | succ k =>
    refine (Completes.cons (fun ws p ds => ?_) (h k)).mono (by omega)
    rw [moreItems, Action.bind_apply, accept_apply, peek_cons, if_pos ht]
    rfl

/-- what a reader of items completes as an item: phrases that do not start with a closing parenthesis -/
def IsItem (P : TokenKind → Prop) (n : Nat) (item : Reader α) : Language α :=
  fun ts a => (∃ t ws, ts = t :: ws ∧ t.kind ≠ .rightParen) ∧ Completes P n ts a item

/-- items are a first one and what is left of the loop behind it -/
theorem Completes.separated (hcomma : P .comma) (hright : P .rightParen) {us : List Token} {as : List α}
    (h : Separated (IsItem P n item) us as) :
    ∃ ts a vs bs, us = ts ++ vs ∧ as = a :: bs ∧ IsItem P n item ts a ∧ P (leadKind vs .rightParen) ∧
      ∀ k, Completes (· = .rightParen) (min n k) vs bs (moreItems item k) := by
  induction h with
  | @one ts a h => exact ⟨ts, a, [], [], (List.append_nil _).symm, rfl, h, hright, fun k => Completes.noMoreItems k⟩
  | @more ts us t a as h ht _ ih =>
    obtain ⟨ts', a', vs', bs', rfl, rfl, h', hP', hrest⟩ := ih
    refine ⟨ts, a, t :: (ts' ++ vs'), a' :: bs', rfl, rfl, h, ?_, ?_⟩
    · rw [← ht] at hcomma
      exact hcomma
    · exact Completes.comma ht fun k => Completes.itemThen h'.2 hP' (hrest k)

/-- items up to a closing parenthesis -/
theorem Completes.items (hcomma : P .comma) (hright : P .rightParen) {us : List Token} {as : List α}
    (h : Listed (IsItem P n item) us as) : Completes (· = .rightParen) n us as (items item) := by
  cases h with
  | none =>
    refine ⟨fun _ rest p ds hrest => ?_, fun us hus _ => ?_⟩
    · rw [Parse.items, peekKind_bind, List.nil_append, peek_kind, if_pos hrest]
      rfl
    · rw [List.prefix_nil.1 hus]
      exact Idle.ranOut
  | some h =>
    obtain ⟨_, a, vs, bs, rfl, rfl, ⟨⟨t, ws, rfl, ht⟩, h⟩, hP, hrest⟩ := Completes.separated hcomma hright h
    have hmore : Completes (· = .rightParen) n vs (a :: bs)
        (Parse.remaining >>= fun k => moreItems item k >>= fun as => Pure.pure (a :: as)) :=
      Completes.remaining fun k => (hrest k).map (a :: ·)
    refine Completes.at (fun ws p ds => ?_) (h.bind (f := fun a => Parse.remaining >>= fun k =>
      moreItems item k >>= fun as => Pure.pure (a :: as)) hmore ?_ ⟨_, rfl⟩)
    · rw [Parse.items, peekKind_bind, peek_cons, if_neg ht]
    · rintro _ rfl
      exact hP

end Items

/-! ## Loops -/

/-- behind the tokens the step is in the loop `more` with `a` read so far, and with rounds enough for what is left -/
structure Prepares (P : TokenKind → Prop) (n : Nat) (ts : List Token) (a : α) (r : Reader α)
    (more : Nat → α → Reader α) : Prop where
  reads : ts.length ≤ n → ∀ rest p ds, P (nextKind rest) →
    ∃ k, rest.length ≤ k ∧ r ⟨ts ++ rest, p, ds⟩ = more k a ⟨rest, p, ds⟩
  starts : ∀ us, us <+: ts → us.length ≤ n → ∀ p ds, RanOut p ds (r ⟨us, p, ds⟩)

section Loops

variable {P Q : TokenKind → Prop} {n : Nat} {ts us : List Token} {a : α} {b : β} {r : Reader α}
  {more : Nat → α → Reader α}

theorem Prepares.zero [Idle r] (hne : ts ≠ []) : Prepares P 0 ts a r more := by
  refine ⟨fun hlen => absurd (List.length_eq_zero_iff.1 (Nat.le_zero.1 hlen)) hne, fun us _ hlen => ?_⟩
  rw [List.length_eq_zero_iff.1 (Nat.le_zero.1 hlen)]
  exact Idle.ranOut

/-- the loop starts behind the first operand -/
theorem Prepares.first [∀ k a, Idle (more k a)] (h : Completes P n ts a r) :
    Prepares P n ts a (r >>= fun a => Parse.remaining >>= fun k => more k a) more := by
  constructor
  · intro hlen rest p ds hrest
    refine ⟨rest.length, Nat.le_refl _, ?_⟩
    rw [Action.bind_apply, h.reads hlen rest p ds hrest]
    rfl
  · intro us hus hlen p ds
    exact (h.starts us hus hlen p ds).bind

/-- a round of the loop: a sign `t` and what `g` reads behind it -/
theorem Prepares.round [∀ k a, Idle (more k a)] (h : Prepares P (n + 1) ts a r more) {t : Token} {g : Reader β}
    (mk : β → α)
    (hstep : ∀ k ws p ds, more (k + 1) a ⟨t :: ws, p, ds⟩ = (g >>= fun b => more k (mk b)) ⟨ws, p, ds⟩)
    (hg : Completes P n us b g) (ht : P t.kind) : Prepares P (n + 1) (ts ++ t :: us) (mk b) r more := by
  constructor
  · intro hlen rest p ds hrest
    rw [List.length_append, List.length_cons] at hlen
    obtain ⟨k, hk, hr⟩ := h.reads (by omega) (t :: (us ++ rest)) p ds ht
    rw [List.length_cons, List.length_append] at hk
    obtain ⟨k, rfl⟩ : ∃ j, k = j + 1 := ⟨k - 1, by omega⟩
    refine ⟨k, by omega, ?_⟩
    rw [List.append_assoc, List.cons_append, hr, hstep, Action.bind_apply, hg.reads (by omega) rest p ds hrest]
  · intro ws hws hlen p ds
    rcases prefix_append_cases hws with hws | ⟨vs, hne, hvs, rfl⟩
    · exact h.starts ws hws hlen p ds
    · cases vs with
      | nil => exact absurd rfl hne
      | cons v vs =>
        obtain ⟨rfl, htail⟩ := List.cons_prefix_cons.1 hvs
        rw [List.length_append, List.length_cons] at hlen
        obtain ⟨k, hk, hr⟩ := h.reads (by omega) (v :: vs) p ds ht
        rw [List.length_cons] at hk
        obtain ⟨k, rfl⟩ : ∃ j, k = j + 1 := ⟨k - 1, by omega⟩
        rw [hr, hstep]
        exact (hg.starts vs htail (by omega) p ds).bind

/-- the loop ends in front of what does not continue it -/
theorem Prepares.completes (h : Prepares P n ts a r more)
    (hend : ∀ k ws p ds, Q (nextKind ws) → more k a ⟨ws, p, ds⟩ = (.ok a, ⟨ws, p, ds⟩)) (hQ : ∀ k, Q k → P k) :
    Completes Q n ts a r := by
  refine ⟨fun hlen rest p ds hrest => ?_, h.starts⟩
  obtain ⟨k, -, hr⟩ := h.reads hlen rest p ds (hQ _ hrest)
  rw [hr, hend k rest p ds hrest]

end Loops

end Parse

end Ouroboros
