/-
Reading by indices does what reading from the front does.

A text is a list of tokens with an end of input, and a mark in it stands for the cursor that has the tokens from there to
the end left. `Agrees x n w r` says that at every mark with at most `n` tokens to the end the step `w` over indices ends,
with the outcome of the reader `r`, and at a mark not in front of where it started. It is closed under sequencing
(`Agrees.bind`), and behind a step that takes a token it is enough to agree where fewer tokens are left (`Agrees.behind`).

The loops agree with the bounded ones by induction on the number of rounds, which never gives out because each round takes
a token, and the recursion through nested phrases by induction on the depth of nesting, since each level costs a token.
-/
import Ouroboros.Proofs.Parsing.Indexed
import Ouroboros.Proofs.Parsing.Progress

namespace Ouroboros

namespace Walk

variable {α β : Type}

/-! ## Texts and marks -/

/-- tokens with an end of input: those in front of it, itself, and whatever stands behind it -/
structure Text where
  body : List Token
  stop : Token
  back : List Token
  body_kind : ∀ t ∈ body, t.kind ≠ .endOfInput
  stop_kind : stop.kind = .endOfInput

namespace Text

variable (x : Text)

def tokens : List Token := x.body ++ x.stop :: x.back

/-- the tokens left at a mark -/
def cursor (m : Mark) : Parse.Cursor := ⟨x.body.drop m.index, x.stop.pos, m.recorded⟩

/-- the mark is not behind the end of input -/
def Holds (m : Mark) : Prop := m.index ≤ x.body.length

/-- the number of tokens to the end of input -/
def left (m : Mark) : Nat := x.body.length - m.index

@[simp] theorem rest_length (m : Mark) : (x.cursor m).rest.length = x.left m := List.length_drop

/-- the mark behind the next token -/
theorem cursor_next (m : Mark) :
    x.cursor { m with index := m.index + 1 } = { x.cursor m with rest := (x.cursor m).rest.tail } := by
  simp only [cursor, List.tail_drop]

theorem left_next (m : Mark) : x.left { m with index := m.index + 1 } = x.left m - 1 := rfl

variable {x} {m : Mark}

theorem proper (x : Text) (m : Mark) : (x.cursor m).Proper := fun t ht => x.body_kind t (List.mem_of_mem_drop ht)

theorem peek_eq (h : x.Holds m) : ∃ t, x.tokens[m.index]? = some t ∧ plain t = (x.cursor m).peek := by
  rcases Nat.lt_or_ge m.index x.body.length with hlt | hge
  · have hrest : (x.cursor m).rest = x.body[m.index] :: x.body.drop (m.index + 1) := List.drop_eq_getElem_cons hlt
    refine ⟨x.body[m.index], ?_, ?_⟩
    · rw [tokens, List.getElem?_append_left hlt, List.getElem?_eq_getElem]
    · rw [plain, if_neg (x.body_kind _ (List.getElem_mem hlt)), Parse.Cursor.peek, hrest]
      rfl
  · have hrest : (x.cursor m).rest = [] := List.drop_eq_nil_iff.2 hge
    refine ⟨x.stop, ?_, ?_⟩
    · rw [tokens, List.getElem?_append_right hge, Nat.sub_eq_zero_of_le h]
      rfl
    · rw [plain, if_pos x.stop_kind, Parse.Cursor.peek, hrest]
      rfl

/-- the end of input is next at the mark with no tokens left, and only there -/
theorem peek_kind_iff (h : x.Holds m) : (x.cursor m).peek.kind = .endOfInput ↔ m.index = x.body.length := by
  rw [(x.proper m).peek_kind, cursor, List.drop_eq_nil_iff]
  exact ⟨Nat.le_antisymm h, Nat.le_of_eq ∘ Eq.symm⟩

theorem index_lt (h : x.Holds m) (hk : (x.cursor m).peek.kind ≠ .endOfInput) : m.index < x.body.length :=
  Nat.lt_of_le_of_ne h fun heq => hk ((peek_kind_iff h).2 heq)

end Text

/-! ## Runs that end -/

section Ends

variable {run : Nat → Option α} {a : α}

theorem Ends.of_eq (h : ∀ k, run k = some a) : Ends run a := ⟨0, fun k _ => h k⟩

/-- one call deeper -/
theorem Ends.succ (h : Ends (fun k => run (k + 1)) a) : Ends run a := by
  obtain ⟨enough, h⟩ := h
  refine ⟨enough + 1, fun k hk => ?_⟩
  obtain ⟨k, rfl⟩ : ∃ j, k = j + 1 := ⟨k - 1, by omega⟩
  exact h k (Nat.le_of_succ_le_succ hk)

theorem Ends.bind {f : α → Nat → Option β} {b : β} (h : Ends run a) (hnext : Ends (f a) b) :
    Ends (fun k => (run k).bind fun a => f a k) b := by
  obtain ⟨enough, h⟩ := h
  obtain ⟨enough', hnext⟩ := hnext
  refine ⟨max enough enough', fun k hk => ?_⟩
  dsimp only
  rw [h k (by omega), Option.bind_some, hnext k (by omega)]

end Ends

/-! ## Agreement -/

variable {x : Text} {n : Nat} {m : Mark} {w : Nat → Walker α} {r : Parse.Reader α} {f : α → Nat → Walker β}
  {g : α → Parse.Reader β}

/-- at the mark the step over indices ends, with the result of the reader, and goes no way back -/
def AgreesAt (x : Text) (m : Mark) (w : Nat → Walker α) (r : Parse.Reader α) : Prop :=
  ∃ m', Ends (fun k => w k x.tokens m) ((r (x.cursor m)).1, m') ∧ (r (x.cursor m)).2 = x.cursor m' ∧
    m.index ≤ m'.index ∧ x.Holds m'

/-- the step agrees with the reader wherever at most `n` tokens are left -/
class Agrees (x : Text) (n : Nat) (w : Nat → Walker α) (r : Parse.Reader α) : Prop where
  agree : ∀ m, x.Holds m → x.left m ≤ n → AgreesAt x m w r

theorem AgreesAt.succ (h : AgreesAt x m (fun k => w (k + 1)) r) : AgreesAt x m w r := by
  obtain ⟨m', hw, hr⟩ := h
  exact ⟨m', hw.succ, hr⟩

theorem Agrees.succ (h : Agrees x n (fun k => w (k + 1)) r) : Agrees x n w r :=
  ⟨fun m hm hleft => (h.agree m hm hleft).succ⟩

theorem bind_run (w : Walker α) (f : α → Walker β) (tokens : List Token) (m : Mark) : (w >>= f) tokens m =
    (w tokens m).bind fun out => match out.1 with
      | .ok a => f a tokens out.2
      | .error d => some (.error d, out.2) := by
  change Option.bind (w tokens m) _ = _
  rcases w tokens m with _ | ⟨_ | _, _⟩ <;> rfl

theorem AgreesAt.bind (h : AgreesAt x m w r)
    (hf : ∀ a m', (r (x.cursor m)).1 = .ok a → (r (x.cursor m)).2 = x.cursor m' → m.index ≤ m'.index → x.Holds m' →
      AgreesAt x m' (f a) (g a)) : AgreesAt x m (fun k => w k >>= fun a => f a k) (r >>= g) := by
  obtain ⟨m', hw, hr, hle, hm'⟩ := h
  simp only [AgreesAt, bind_run, Action.bind_apply]
  rcases hrun : r (x.cursor m) with ⟨d | a, c⟩ <;> rw [hrun] at hr hf hw
  · exact ⟨m', hw.bind (.of_eq fun k => rfl), hr, hle, hm'⟩
  · obtain ⟨m'', hw', hr', hle', hm''⟩ := hf a m' rfl hr hle hm'
    dsimp only at hr ⊢
    rw [hr]
    exact ⟨m'', hw.bind hw', hr', Nat.le_trans hle hle', hm''⟩

theorem Agrees.mono {k : Nat} (h : Agrees x n w r) (hk : k ≤ n) : Agrees x k w r :=
  ⟨fun m hm hleft => h.agree m hm (Nat.le_trans hleft hk)⟩

theorem Agrees.bind (h : Agrees x n w r) (hf : ∀ a, Agrees x n (f a) (g a)) :
    Agrees x n (fun k => w k >>= fun a => f a k) (r >>= g) := by
  refine ⟨fun m hm hleft => (h.agree m hm hleft).bind fun a m' _ _ hle hm' => (hf a).agree m' hm' ?_⟩
  rw [Text.left] at hleft ⊢
  omega

instance [h : Agrees x n w r] [hf : ∀ a, Agrees x n (f a) (g a)] :
    Agrees x n (fun k => w k >>= fun a => f a k) (r >>= g) := h.bind hf

/-- **Behind a token.** When the first step takes a token, the next has to agree only where fewer tokens are left. -/
theorem Agrees.behind (h : Agrees x n w r) (htakes : Parse.Takes r) (hf : ∀ k < n, ∀ a, Agrees x k (f a) (g a)) :
    Agrees x n (fun k => w k >>= fun a => f a k) (r >>= g) := by
  refine ⟨fun m hm hleft => (h.agree m hm hleft).bind fun a m' ha hm'' hle hm' => ?_⟩
  have hfewer := htakes _ (x.proper m) a (x.cursor m') (Prod.ext ha hm'')
  rw [Text.rest_length, Text.rest_length] at hfewer
  exact (hf (x.left m') (by omega) a).agree m' hm' (Nat.le_refl _)

theorem AgreesAt.look {a : α} (hm : x.Holds m) (hw : ∀ k, w k x.tokens m = some (.ok a, m))
    (hr : r (x.cursor m) = (.ok a, x.cursor m)) : AgreesAt x m w r :=
  ⟨m, .of_eq (by rw [hr]; exact hw), by rw [hr], Nat.le_refl _, hm⟩

instance (a : α) : Agrees x n (fun _ => pure a) (pure a) := ⟨fun _ hm _ => .look hm (fun _ => rfl) rfl⟩

instance (t : Token) (fault : Token → Fault) :
    Agrees x n (fun _ => (failAtToken t fault : Walker α)) (Parse.failAtToken t fault) :=
  ⟨fun m hm _ => ⟨m, .of_eq fun _ => rfl, rfl, Nat.le_refl _, hm⟩⟩

instance {p : Prop} [Decidable p] {w' : Nat → Walker α} {r' : Parse.Reader α} [Agrees x n w r] [Agrees x n w' r'] :
    Agrees x n (fun k => if p then w k else w' k) (if p then r else r') := by
  split <;> assumption

/-! ## Single tokens -/

theorem peek_run (hm : x.Holds m) : peek x.tokens m = some (.ok (x.cursor m).peek, m) := by
  obtain ⟨t, ht, hplain⟩ := Text.peek_eq hm
  change (x.tokens[m.index]?.map fun t => (Except.ok (plain t), m)) = _
  rw [ht, Option.map_some, hplain]

instance agrees_peek : Agrees x n (fun _ => peek) Parse.peek := ⟨fun _ hm _ => .look hm (fun _ => peek_run hm) rfl⟩

theorem peekKind_run (hm : x.Holds m) : peekKind x.tokens m = some (.ok (x.cursor m).peek.kind, m) := by
  rw [peekKind, bind_run, peek_run hm]
  rfl

instance agrees_peekKind : Agrees x n (fun _ => peekKind) Parse.peekKind :=
  ⟨fun _ hm _ => .look hm (fun _ => peekKind_run hm) rfl⟩

theorem advance_run (hm : x.Holds m) : advance x.tokens m = some (.ok (x.cursor m).peek,
    if (x.cursor m).peek.kind = .endOfInput then m else { m with index := m.index + 1 }) := by
  rw [advance, bind_run, peek_run hm]
  dsimp only [Option.bind_some]
  split <;> rfl

instance agrees_advance : Agrees x n (fun _ => advance) Parse.advance := by
  refine ⟨fun m hm _ => ?_⟩
  rw [AgreesAt, advance_run hm, Parse.advance_apply]
  by_cases hk : (x.cursor m).peek.kind = .endOfInput
  · have hrest := (x.proper m).peek_kind.1 hk
    refine ⟨m, .of_eq fun _ => by rw [if_pos hk], ?_, Nat.le_refl _, hm⟩
    rw [hrest, List.tail_nil, ← hrest]
  · exact ⟨{ m with index := m.index + 1 }, .of_eq fun _ => by rw [if_neg hk], (x.cursor_next m).symm, Nat.le_succ _,
      Text.index_lt hm hk⟩

instance (kind : TokenKind) : Agrees x n (fun _ => need kind) (Parse.need kind) := by
  unfold need Parse.need
  infer_instance

instance (kind : TokenKind) : Agrees x n (fun _ => accept kind) (Parse.accept kind) := by
  unfold accept Parse.accept
  infer_instance

theorem AgreesAt.peek_bind {f : Token → Nat → Walker β} {g : Token → Parse.Reader β} (hm : x.Holds m)
    (h : AgreesAt x m (f (x.cursor m).peek) (g (x.cursor m).peek)) :
    AgreesAt x m (fun k => peek >>= fun t => f t k) (Parse.peek >>= g) := by
  simp only [AgreesAt, bind_run, peek_run hm, Parse.peek_bind]
  exact h

theorem AgreesAt.peekKind_bind {f : TokenKind → Nat → Walker β} {g : TokenKind → Parse.Reader β} (hm : x.Holds m)
    (h : AgreesAt x m (f (x.cursor m).peek.kind) (g (x.cursor m).peek.kind)) :
    AgreesAt x m (fun k => peekKind >>= fun kind => f kind k) (Parse.peekKind >>= g) := by
  simp only [AgreesAt, bind_run, peekKind_run hm, Parse.peekKind_bind]
  exact h

/-- behind a token that is no end of input fewer tokens are left -/
theorem AgreesAt.advance_bind {f : Token → Nat → Walker β} {g : Token → Parse.Reader β} (hm : x.Holds m)
    (hleft : x.left m ≤ n) (hk : (x.cursor m).peek.kind ≠ .endOfInput) (h : ∀ j < n, ∀ t, Agrees x j (f t) (g t)) :
    AgreesAt x m (fun k => advance >>= fun t => f t k) (Parse.advance >>= g) := by
  have hlt := Text.index_lt hm hk
  refine (agrees_advance.agree m hm hleft).bind fun t m' _ hm'' _ hm' => ?_
  have hfewer := congrArg (fun c => c.rest.length) hm''
  rw [Parse.advance_apply] at hfewer
  simp only [Text.rest_length, List.length_tail, Text.left] at hfewer hleft
  refine (h (x.left m') ?_ t).agree m' hm' (Nat.le_refl _)
  rw [Text.left]
  omega

/-- a branch for one kind of token, behind that token -/
theorem Agrees.ifNext {kind : TokenKind} (hkind : kind ≠ .endOfInput) {f : Token → Nat → Walker β}
    {g : Token → Parse.Reader β} {w : Nat → Walker β} {r : Parse.Reader β} (h : ∀ j < n, ∀ t, Agrees x j (f t) (g t))
    (hr : Agrees x n w r) :
    Agrees x n (fun k => peekKind >>= fun next => if next = kind then advance >>= fun t => f t k else w k)
      (Parse.peekKind >>= fun next => if next = kind then Parse.advance >>= g else r) := by
  refine ⟨fun m hm hleft => .peekKind_bind hm ?_⟩
  by_cases hk : (x.cursor m).peek.kind = kind
  · simp only [if_pos hk]
    exact .advance_bind hm hleft (hk ▸ hkind) h
  · simp only [if_neg hk]
    exact hr.agree m hm hleft

theorem accept_bind (kind : TokenKind) (w w' : Walker β) : (accept kind >>= fun b => if b = true then w else w') =
    peekKind >>= fun next => if next = kind then advance >>= fun _ => w else w' := by
  unfold accept
  rw [bind_assoc]
  congr 1
  funext next
  split <;> simp

theorem parse_accept_bind (kind : TokenKind) (r r' : Parse.Reader β) :
    (Parse.accept kind >>= fun b => if b = true then r else r') =
      Parse.peekKind >>= fun next => if next = kind then Parse.advance >>= fun _ => r else r' := by
  unfold Parse.accept
  rw [bind_assoc]
  congr 1
  funext next
  split <;> simp

/-! ## Loops -/

/-- with no token left a loop is at its end, and needs no round -/
theorem Agrees.ended {f : TokenKind → Nat → Walker α} {a : α} (hf : ∀ k, f .endOfInput k = pure a) :
    Agrees x 0 (fun k => peekKind >>= fun kind => f kind k) (pure a : Parse.Reader α) := by
  refine ⟨fun m hm hleft => .look (a := a) hm (fun k => ?_) rfl⟩
  have hk : (x.cursor m).peek.kind = .endOfInput := by
    rw [(x.proper m).peek_kind, ← List.length_eq_zero_iff, Text.rest_length]
    omega
  rw [bind_run, peekKind_run hm, hk]
  simp only [Option.bind_some, hf]
  rfl

/-- as many rounds as there are tokens left -/
theorem Agrees.remaining {g : Nat → Parse.Reader α} (h : ∀ j ≤ n, Agrees x j w (g j)) :
    Agrees x n w (Parse.remaining >>= g) := by
  refine ⟨fun m hm hleft => ?_⟩
  rw [AgreesAt, Parse.remaining_bind, Text.rest_length]
  exact (h (x.left m) hleft).agree m hm (Nat.le_refl _)

section Items

variable {item : Parse.Reader α} {ws : Nat → Walker (List α)} {rounds : Nat}

/-- `ws` is the loop over what stands behind commas -/
def Repeats (w : Nat → Walker α) (ws : Nat → Walker (List α)) : Prop :=
  ∀ k, ws (k + 1) = accept .comma >>= fun b => if b = true then w k >>= fun a => ws k >>= fun others =>
    pure (a :: others) else pure []

theorem agrees_moreItems (hws : Repeats w ws) (hn : n ≤ rounds) (h : Agrees x n w item) :
    Agrees x n ws (Parse.moreItems item rounds) := by
  induction rounds generalizing n with
  | zero =>
    refine .succ ?_
    simp only [hws _, accept_bind]
    rw [Nat.le_zero.1 hn]
    exact .ended fun _ => rfl
  | succ rounds ih =>
    refine .succ ?_
    simp only [hws _, accept_bind, Parse.moreItems, parse_accept_bind]
    refine .ifNext (by decide) (fun j hj _ => ?_) inferInstance
    have hitem := h.mono (Nat.le_of_lt hj)
    have hrest := ih (by omega) hitem
    infer_instance

theorem agrees_items (hws : Repeats w ws) (h : Agrees x n w item) :
    Agrees x n (fun k => peekKind >>= fun kind => if kind = .rightParen then pure []
      else w k >>= fun first => ws k >>= fun others => pure (first :: others)) (Parse.items item) := by
  rw [Parse.items]
  refine agrees_peekKind.bind fun kind => ?_
  split
  · infer_instance
  · exact h.bind fun first => .remaining fun j hj =>
      (agrees_moreItems hws (Nat.le_refl j) (h.mono hj)).bind fun others => inferInstance

end Items

/-! ## Expressions -/

section Nested

variable {nested : Parse.Reader Expr} {rounds : Nat}

theorem agrees_chainRest {operand : Parse.Reader Expr} {level : Level} (hn : n ≤ rounds)
    (h : Agrees x n (Walk.operand level) operand) (left : Expr) :
    Agrees x n (chainRest level left) (Parse.chainRest operand level.op? rounds left) := by
  have hend : level.op? .endOfInput = none := by cases level <;> rfl
  induction rounds generalizing n left with
  | zero =>
    refine .succ ?_
    rw [Nat.le_zero.1 hn]
    exact .ended fun k => by rw [hend]
  | succ rounds ih =>
    refine .succ ⟨fun m hm hleft => .peekKind_bind hm ?_⟩
    cases hop : level.op? (x.cursor m).peek.kind with
    | none => exact .look hm (fun _ => rfl) rfl
    | some op =>
      have hk : (x.cursor m).peek.kind ≠ .endOfInput := fun hk => by simp [hk, hend] at hop
      refine .advance_bind hm hleft hk fun j hj sign => (h.mono (Nat.le_of_lt hj)).bind fun right => ?_
      exact ih (by omega) (h.mono (Nat.le_of_lt hj)) _

theorem agrees_chain {operand : Parse.Reader Expr} (level : Level) (h : Agrees x n (Walk.operand level) operand) :
    Agrees x n (chain level) (Parse.chain operand level.op?) :=
  .succ (h.bind fun first => .remaining fun j hj => agrees_chainRest (Nat.le_refl j) (h.mono hj) first)

theorem agrees_arguments (h : Agrees x n expr nested) : Agrees x n arguments (Parse.items nested) :=
  .succ (agrees_items (fun _ => rfl) h)

theorem agrees_callRest (hn : n ≤ rounds) (h : ∀ j < n, Agrees x j expr nested) (callee : Expr) :
    Agrees x n (callRest callee) (Parse.callRest nested rounds callee) := by
  induction rounds generalizing n callee with
  | zero =>
    refine .succ ?_
    rw [Nat.le_zero.1 hn]
    exact .ended fun _ => rfl
  | succ rounds ih =>
    refine .succ (.ifNext (by decide) (fun j hj sign => ?_) inferInstance)
    have hargs := agrees_arguments (h j hj)
    have hrest := fun args => ih (n := j) (by omega) (fun i hi => h i (Nat.lt_trans hi hj)) (.call sign.pos callee args)
    infer_instance

theorem agrees_primary (h : ∀ j < n, Agrees x j expr nested) : Agrees x n primary (Parse.primary nested) := by
  refine .succ ⟨fun m hm hleft => .peek_bind hm ?_⟩
  cases hk : (x.cursor m).peek.kind
  case leftParen =>
    exact .advance_bind hm hleft (by rw [hk]; decide) fun j hj _ => (h j hj).bind fun inner => inferInstance
  all_goals exact Agrees.agree m hm hleft

theorem agrees_call (h : ∀ j < n, Agrees x j expr nested) : Agrees x n call (Parse.call nested) :=
  .succ ((agrees_primary h).bind fun callee => .remaining fun j hj =>
    agrees_callRest (Nat.le_refl j) (fun i hi => h i (Nat.lt_of_lt_of_le hi hj)) callee)

theorem agrees_unary (h : ∀ j < n, Agrees x j expr nested) : Agrees x n unary (Parse.unary nested) := by
  have hcall := agrees_call h
  refine .succ ?_
  simp only [unary, Parse.unary]
  infer_instance

theorem agrees_span (h : Agrees x n (chain .sum) (Parse.sum nested)) : Agrees x n span (Parse.span nested) := by
  refine .succ ?_
  simp only [span, Parse.span]
  infer_instance

/-- **One level of nesting.** Expressions agree where the expressions nested in them agree with fewer tokens left. -/
theorem agrees_comparison (h : ∀ j < n, Agrees x j expr nested) : Agrees x n expr (Parse.comparison nested) := by
  have hproduct : Agrees x n (chain .product) (Parse.product nested) := agrees_chain .product (.succ (agrees_unary h))
  have hsum : Agrees x n (chain .sum) (Parse.sum nested) := agrees_chain .sum (.succ hproduct)
  exact .succ (agrees_chain .compare (.succ (agrees_span hsum)))

end Nested

theorem agrees_exprWithin {depth : Nat} (hn : n < depth) : Agrees x n expr (Parse.exprWithin depth) := by
  induction depth generalizing n with
  | zero => exact absurd hn (Nat.not_lt_zero n)
  | succ depth ih => exact agrees_comparison fun j hj => ih (Nat.lt_of_lt_of_le hj (Nat.le_of_lt_succ hn))

instance : Agrees x n expr Parse.expr := .remaining fun _ _ => agrees_exprWithin (Nat.lt_succ_self _)

/-! ## Statements without statements inside -/

instance : Agrees x n (fun _ => typeRef) Parse.typeRef := by
  unfold typeRef Parse.typeRef
  infer_instance

instance (sign : TokenKind) : Agrees x n (fun _ => typeAfter sign) (Parse.typeAfter sign) := by
  unfold typeAfter Parse.typeAfter
  infer_instance

instance : Agrees x n letDecl Parse.letDecl := by
  unfold letDecl Parse.letDecl
  infer_instance

instance : Agrees x n assign Parse.assign := by
  unfold assign Parse.assign
  infer_instance

instance : Agrees x n ret Parse.ret := by
  unfold ret Parse.ret
  infer_instance

instance : Agrees x n exprStmt Parse.exprStmt := by
  unfold exprStmt Parse.exprStmt
  infer_instance

instance : Agrees x n (fun _ => param) Parse.param := by
  unfold param Parse.param
  infer_instance

instance : Agrees x n params (Parse.items Parse.param) := agrees_items (fun _ => rfl) inferInstance

end Walk

end Ouroboros
