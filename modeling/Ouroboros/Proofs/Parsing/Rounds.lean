/-
Loops over statements, round by round.

A round of such a loop reads a statement or recovers from its fault (`Parse.round`), and it leaves fewer tokens than it
found, or ends the loop (`Parse.length_round_lt`). So the loops over indices agree with the bounded ones, for programs
(`agrees_program`) as for blocks, and with them all statements agree (`agrees_statement`).
-/
import Ouroboros.Proofs.Parsing.Agreeing

namespace Ouroboros

namespace Parse

/-! ## Rounds -/

/-- one round of a loop over statements: a statement, or recovery from its fault unless the fault ends the loop -/
def round (ends : Diagnostic → Bool) (inner : Reader Stmt) : Reader (Option Stmt) := do
  let start ← remaining
  match ← Action.attempt inner with
  | .ok s => return some s
  | .error d =>
    if ends d then Action.fail d
    else
      recover start d
      return none

variable {inner : Reader Stmt} {ends : Diagnostic → Bool} {c d : Cursor}

theorem round_ok {s : Stmt} (h : inner c = (.ok s, d)) : round ends inner c = (.ok (some s), d) := by
  rw [round, remaining_bind, attempt_bind_apply, h]
  rfl

theorem round_error {e : Diagnostic} (h : inner c = (.error e, d)) : round ends inner c =
    if ends e then (.error e, d)
    else (.ok none, { d with rest := resume c.rest.length d.rest, recorded := d.recorded ++ [e] }) := by
  rw [round, remaining_bind, attempt_bind_apply, h]
  dsimp only
  split <;> rfl

/-- a round fails only when the fault ends the loop -/
theorem ends_of_round {e : Diagnostic} (h : round ends inner c = (.error e, d)) : ends e = true := by
  rcases hr : inner c with ⟨e' | s, d'⟩
  · rw [round_error hr] at h
    split at h
    · cases h
      assumption
    · cases h
  · rw [round_ok hr] at h
    cases h

/-- **A round makes progress.** -/
theorem length_round_lt [Keeps inner] (htakes : Takes inner) (hc : c.Proper) (hne : c.rest ≠ []) {s? : Option Stmt}
    (h : round ends inner c = (.ok s?, d)) : d.rest.length < c.rest.length := by
  rcases hr : inner c with ⟨e | s, d'⟩
  · rw [round_error hr] at h
    split at h
    · cases h
    · cases h
      exact length_resume_lt hne (Keeps.of_eq hc hr)
  · rw [round_ok hr] at h
    cases h
    exact htakes c hc s d hr

theorem blockBody_succ (inner : Reader Stmt) (n : Nat) : blockBody inner (n + 1) = peekKind >>= fun kind =>
    if kind = .rightBrace ∨ kind = .endOfInput then pure []
    else round Diagnostic.incomplete inner >>= fun s? => blockBody inner n >>= fun others =>
      pure (s?.toList ++ others) := by
  funext c
  rw [blockBody, peekKind_bind, peekKind_bind]
  split
  · rfl
  · rw [remaining_bind, attempt_bind_apply, Action.bind_apply]
    rcases hr : inner c with ⟨e | s, d⟩
    · rw [round_error hr]
      dsimp only
      split
      · rfl
      · simp only [Option.toList_none, List.nil_append, bind_pure]
        rfl
    · rw [round_ok hr]
      rfl

theorem statements_succ (n : Nat) : statements (n + 1) = remaining >>= fun start =>
    if start = 0 then pure []
    else round (fun _ => false) statement >>= fun s? => statements n >>= fun others => pure (s?.toList ++ others) := by
  funext c
  rw [statements, remaining_bind, remaining_bind]
  split
  · rfl
  · rw [attempt_bind_apply, Action.bind_apply]
    rcases hr : statement c with ⟨e | s, d⟩
    · rw [round_error hr, if_neg Bool.false_ne_true]
      simp only [Option.toList_none, List.nil_append, bind_pure]
      rfl
    · rw [round_ok hr]
      rfl

end Parse

namespace Walk

variable {α β : Type} {x : Text} {n : Nat} {m : Mark}

/-! ## Recovery -/

theorem Text.resume_eq {start : Nat} (hk : (x.cursor m).peek.kind ≠ .endOfInput) :
    Parse.resume start (x.cursor m).rest =
      if (x.cursor m).peek.kind = .semicolon then (x.cursor m).rest.tail
      else if (x.cursor m).peek.kind = .leftBrace ∨ (x.cursor m).peek.kind = .rightBrace then
        if x.left m = start then (x.cursor m).rest.tail else (x.cursor m).rest
      else Parse.resume start (x.cursor m).rest.tail := by
  rw [← Text.rest_length]
  generalize x.cursor m = c at hk ⊢
  obtain ⟨_ | ⟨t, rest⟩, finish, recorded⟩ := c
  · exact absurd rfl hk
  · rfl

/-- skipping in front of the end looks at the next token -/
theorem synchronize_run {start : Nat} (hm : x.Holds m) (hk : (x.cursor m).peek.kind ≠ .endOfInput) (k : Nat) :
    synchronize start (k + 1) x.tokens m = (if (x.cursor m).peek.kind = .semicolon then step
      else if (x.cursor m).peek.kind = .leftBrace ∨ (x.cursor m).peek.kind = .rightBrace then
        if m.index = start then step else pure ()
      else step >>= fun _ => synchronize start k : Walker Unit) x.tokens m := by
  rw [synchronize, bind_run, peekKind_run hm]
  simp only [Option.bind_some, if_neg hk]
  split
  · rfl
  split
  · rfl
  · rfl

/-- skipping by indices skips the tokens that recovery skips -/
theorem exists_synchronize {start : Nat} (hstart : start ≤ x.body.length) (hm : x.Holds m) :
    ∃ m', Ends (fun k => synchronize start k x.tokens m) (.ok (), m') ∧ m.index ≤ m'.index ∧ x.Holds m' ∧
      { x.cursor m with rest := Parse.resume (x.body.length - start) (x.cursor m).rest } = x.cursor m' := by
  induction hleft : x.left m generalizing m with
  | zero =>
    have hend : (x.cursor m).rest = [] := by
      rw [← List.length_eq_zero_iff, Text.rest_length, hleft]
    refine ⟨m, .succ (.of_eq fun k => ?_), Nat.le_refl _, hm, ?_⟩
    · rw [synchronize, bind_run, peekKind_run hm, (x.proper m).peek_kind.2 hend]
      rfl
    · rw [hend, Parse.resume, ← hend]
  | succ n ih =>
    have hlt : m.index < x.body.length := by
      rw [Text.left] at hleft
      omega
    have hk : (x.cursor m).peek.kind ≠ .endOfInput := fun hk => by
      rw [Text.peek_kind_iff hm] at hk
      omega
    have hnext : x.Holds { m with index := m.index + 1 } := hlt
    have hindex : m.index = start ↔ x.left m = x.body.length - start := by
      rw [Text.left]
      omega
    rw [Text.resume_eq hk]
    split
    · rename_i hsemicolon
      exact ⟨_, .succ (.of_eq fun k => by rw [synchronize_run hm hk, if_pos hsemicolon]; rfl), Nat.le_succ _, hnext,
        (x.cursor_next m).symm⟩
    split
    · rename_i hsemicolon hbrace
      by_cases hat : m.index = start
      · rw [if_pos (hindex.1 hat)]
        exact ⟨_, .succ (.of_eq fun k => by rw [synchronize_run hm hk, if_neg hsemicolon, if_pos hbrace, if_pos hat]; rfl),
          Nat.le_succ _, hnext, (x.cursor_next m).symm⟩
      · rw [if_neg fun h => hat (hindex.2 h)]
        exact ⟨m, .succ (.of_eq fun k => by rw [synchronize_run hm hk, if_neg hsemicolon, if_pos hbrace, if_neg hat]; rfl),
          Nat.le_refl _, hm, rfl⟩
    · rename_i hsemicolon hbrace
      obtain ⟨m', hends, hle, hm', hcursor⟩ := ih hnext (by rw [Text.left_next, hleft, Nat.add_sub_cancel])
      rw [Text.cursor_next] at hcursor
      refine ⟨m', .succ ?_, Nat.le_of_succ_le hle, hm', hcursor⟩
      simp only [synchronize_run hm hk, if_neg hsemicolon, if_neg hbrace]
      exact hends

theorem settle_error (ends : Diagnostic → Bool) {start : Nat} {e : Diagnostic} (hstart : start ≤ x.body.length)
    (hm : x.Holds m) : ∃ m', Ends (fun k => settle ends start (.error e) k x.tokens m)
      (if ends e then (.error e, m) else (.ok none, m')) ∧ m.index ≤ m'.index ∧ x.Holds m' ∧
      { x.cursor m with
        rest := Parse.resume (x.body.length - start) (x.cursor m).rest
        recorded := m.recorded ++ [e] } = x.cursor m' := by
  obtain ⟨m', hends, hle, hm', hcursor⟩ := exists_synchronize (m := { m with recorded := m.recorded ++ [e] }) hstart hm
  refine ⟨m', ?_, hle, hm', hcursor⟩
  simp only [settle]
  split
  · exact .of_eq fun _ => rfl
  · change Ends (fun k => (synchronize start k x.tokens { m with recorded := m.recorded ++ [e] }).bind _) _
    exact hends.bind (f := fun out k => _) (.of_eq fun _ => rfl)

/-- the rounds agree at a mark where the statements do -/
theorem AgreesAt.round {inner : Parse.Reader Stmt} {ends : Diagnostic → Bool} {w : Nat → Walker (Option Stmt)}
    (hw : ∀ k, w k x.tokens m = (statement k x.tokens m).bind fun out => settle ends m.index out.1 k x.tokens out.2)
    (hm : x.Holds m) (h : AgreesAt x m statement inner) : AgreesAt x m w (Parse.round ends inner) := by
  obtain ⟨m', hends, hcursor, hle, hm'⟩ := h
  rcases hinner : inner (x.cursor m) with ⟨e | s, d⟩ <;> rw [hinner] at hcursor hends <;> obtain rfl := hcursor
  · obtain ⟨m'', hsettle, hle', hm'', hcursor'⟩ := settle_error ends (e := e) hm hm'
    rw [AgreesAt, Parse.round_error hinner, Text.rest_length]
    simp only [hw]
    by_cases he : ends e
    · rw [if_pos he] at hsettle ⊢
      exact ⟨m', hends.bind hsettle, rfl, hle, hm'⟩
    · rw [if_neg he] at hsettle ⊢
      exact ⟨m'', hends.bind hsettle, hcursor', Nat.le_trans hle hle', hm''⟩
  · rw [AgreesAt, Parse.round_ok hinner]
    simp only [hw]
    exact ⟨m', hends.bind (.of_eq fun _ => rfl), rfl, hle, hm'⟩

/-! ## Statements -/

/-- one token further there is still a token of the list -/
theorem kindBehind_run (hm : m.index < x.body.length) :
    kindBehind x.tokens m = some (.ok (x.cursor { m with index := m.index + 1 }).peek.kind, m) := by
  obtain ⟨t, ht, hplain⟩ := Text.peek_eq (x := x) (m := { m with index := m.index + 1 }) hm
  have hmin : min (m.index + 1) (x.tokens.length - 1) = m.index + 1 := by
    rw [Text.tokens, List.length_append, List.length_cons]
    omega
  change ((x.tokens[min (m.index + 1) (x.tokens.length - 1)]?.map fun t => (Except.ok (plain t), m)).bind _) = _
  rw [hmin, ht, ← hplain]
  rfl

theorem Text.startsAssign_eq (hk : (x.cursor m).peek.kind = .identifier) : Parse.startsAssign (x.cursor m) =
    decide ((x.cursor { m with index := m.index + 1 }).peek.kind = .equals) := by
  rw [Text.cursor_next]
  generalize x.cursor m = c at hk ⊢
  obtain ⟨_ | ⟨t, _ | ⟨u, rest⟩⟩, finish, recorded⟩ := c
  · rfl
  · rfl
  · change t.kind = .identifier at hk
    change (decide (t.kind = .identifier) && decide (u.kind = .equals)) = decide (u.kind = .equals)
    rw [hk]
    rfl

theorem Text.not_startsAssign (hk : (x.cursor m).peek.kind ≠ .identifier) :
    Parse.startsAssign (x.cursor m) = false := by
  generalize x.cursor m = c at hk ⊢
  obtain ⟨_ | ⟨t, _ | ⟨u, rest⟩⟩, finish, recorded⟩ := c
  · rfl
  · rfl
  · change t.kind ≠ .identifier at hk
    simp [Parse.startsAssign, hk]

theorem asks_bind (p : Parse.Cursor → α) (f : α → Parse.Reader β) (c : Parse.Cursor) :
    (Action.asks p >>= f) c = f (p c) c := rfl

section Inner

variable {inner : Parse.Reader Stmt} {rounds : Nat}

theorem agrees_blockBody [Parse.Keeps inner] (htakes : Parse.Takes inner) (hn : n ≤ rounds)
    (h : Agrees x n statement inner) : Agrees x n blockBody (Parse.blockBody inner rounds) := by
  induction rounds generalizing n with
  | zero =>
    refine .succ ?_
    rw [Nat.le_zero.1 hn]
    exact .ended fun _ => rfl
  | succ rounds ih =>
    rw [Parse.blockBody_succ]
    refine .succ ⟨fun m hm hleft => .peekKind_bind hm ?_⟩
    split
    · exact .look hm (fun _ => rfl) rfl
    · rename_i hk
      have hround : AgreesAt x m blockRound (Parse.round Diagnostic.incomplete inner) :=
        .succ (.round (fun _ => rfl) hm (h.agree m hm hleft))
      refine hround.bind fun s? m' hs hm'' _ hm' => ?_
      have hne : (x.cursor m).rest ≠ [] := fun hnil => hk (Or.inr ((x.proper m).peek_kind.2 hnil))
      have hfewer := Parse.length_round_lt (d := x.cursor m') htakes (x.proper m) hne (Prod.ext hs hm'')
      rw [Text.rest_length, Text.rest_length] at hfewer
      have hbody := ih (n := x.left m') (by omega) (h.mono (by omega))
      exact Agrees.agree m' hm' (Nat.le_refl _)

variable (htakes : Parse.Takes inner) (h : ∀ k < n, Agrees x k statement inner)

include htakes h

theorem agrees_block [Parse.Keeps inner] : Agrees x n block (Parse.block inner) := by
  refine .succ (.behind inferInstance (Parse.takes_need (by decide)) fun j hj sign => .remaining fun i hi => ?_)
  exact (agrees_blockBody htakes (Nat.le_refl i) ((h j hj).mono hi)).bind fun stmts => inferInstance

theorem agrees_fnDecl [Parse.Keeps inner] : Agrees x n fnDecl (Parse.fnDecl inner) := by
  have hblock := agrees_block htakes h
  refine .succ ?_
  simp only [fnDecl, Parse.fnDecl]
  infer_instance

theorem agrees_loop [Parse.Keeps inner] : Agrees x n loop (Parse.loop inner) := by
  have hblock := agrees_block htakes h
  refine .succ ?_
  simp only [loop, Parse.loop]
  infer_instance

theorem agrees_cond [Parse.Keeps inner] : Agrees x n cond (Parse.cond inner) := by
  refine .succ (agrees_advance.bind fun word => .behind inferInstance (Parse.takes_need (by decide)) fun j hj _ => ?_)
  have hblock := agrees_block htakes fun i hi => h i (Nat.lt_trans hi hj)
  have hother : Agrees x j otherwise (Parse.otherwise inner) := by
    have hinner := h j hj
    refine .succ ?_
    simp only [otherwise, Parse.otherwise]
    infer_instance
  infer_instance

/-- **One level of nesting.** Statements agree where the statements inside them agree with fewer tokens left. -/
theorem agrees_statementWith [Parse.Keeps inner] : Agrees x n statement (Parse.statementWith inner) := by
  have hfn := agrees_fnDecl htakes h
  have hcond := agrees_cond htakes h
  have hloop := agrees_loop htakes h
  have hblock := agrees_block htakes h
  refine .succ ⟨fun m hm hleft => .peek_bind hm ?_⟩
  have hother : ∀ kind, (x.cursor m).peek.kind = kind → kind ≠ .identifier →
      AgreesAt x m (fun k => if kind.startsExpression then exprStmt k
          else failAtToken (x.cursor m).peek .expectedStatement)
        (Action.asks Parse.startsAssign >>= fun b => if b then Parse.assign else if kind.startsExpression
          then Parse.exprStmt else Parse.failAtToken (x.cursor m).peek .expectedStatement) := by
    intro kind hk hne
    rw [AgreesAt, asks_bind, Text.not_startsAssign (hk ▸ hne), if_neg Bool.false_ne_true]
    exact Agrees.agree m hm hleft
  cases hk : (x.cursor m).peek.kind
  case identifier =>
    have hlt := Text.index_lt hm (by rw [hk]; decide)
    simp only [AgreesAt, bind_run, kindBehind_run hlt]
    rw [asks_bind, Text.startsAssign_eq hk]
    by_cases hequals : (x.cursor { m with index := m.index + 1 }).peek.kind = .equals
    · simp only [Option.bind_some, hequals, decide_true, if_true]
      exact Agrees.agree (w := assign) (r := Parse.assign) m hm hleft
    · simp only [Option.bind_some, hequals, decide_false, if_false]
      exact Agrees.agree (w := exprStmt) (r := Parse.exprStmt) m hm hleft
  case letWord => exact Agrees.agree (w := letDecl) (r := Parse.letDecl) m hm hleft
  case returnWord => exact Agrees.agree (w := ret) (r := Parse.ret) m hm hleft
  all_goals first
    | exact Agrees.agree m hm hleft
    | exact hother _ hk (by simp)

end Inner

theorem agrees_statementWithin {depth : Nat} (hn : n < depth) : Agrees x n statement (Parse.statementWithin depth) := by
  induction depth generalizing n with
  | zero => exact absurd hn (Nat.not_lt_zero n)
  | succ depth ih =>
    have hkeeps : Parse.Keeps (Parse.statementWithin depth) := (Parse.Reads.statementWithin depth).keeps
    exact agrees_statementWith (Parse.takes_statementWithin depth) fun k hk =>
      ih (Nat.lt_of_lt_of_le hk (Nat.le_of_lt_succ hn))

theorem agrees_statement : Agrees x n statement Parse.statement :=
  .remaining fun _ _ => agrees_statementWithin (Nat.lt_succ_self _)

/-! ## Programs -/

instance : Parse.Keeps Parse.statement := Parse.Reads.statement.keeps

theorem agreesAt_blockRound (hm : x.Holds m) :
    AgreesAt x m blockRound (Parse.round Diagnostic.incomplete Parse.statement) :=
  .succ (.round (fun _ => rfl) hm ((agrees_statement (n := x.left m)).agree m hm (Nat.le_refl _)))

theorem agreesAt_programRound (hm : x.Holds m) :
    AgreesAt x m programRound (Parse.round (fun _ => false) Parse.statement) :=
  .round (fun _ => rfl) hm ((agrees_statement (n := x.left m)).agree m hm (Nat.le_refl _))

theorem agrees_program {rounds : Nat} (hn : n ≤ rounds) : Agrees x n program (Parse.statements rounds) := by
  induction rounds generalizing n with
  | zero =>
    refine .succ ?_
    rw [Nat.le_zero.1 hn]
    exact .ended fun _ => rfl
  | succ rounds ih =>
    rw [Parse.statements_succ]
    refine .succ ⟨fun m hm hleft => ?_⟩
    simp only [AgreesAt, program, bind_run, peekKind_run hm, Parse.remaining_bind]
    have hend : (x.cursor m).peek.kind = .endOfInput ↔ (x.cursor m).rest.length = 0 := by
      rw [(x.proper m).peek_kind, List.length_eq_zero_iff]
    by_cases hk : (x.cursor m).peek.kind = .endOfInput
    · simp only [Option.bind_some, hk, hend.1 hk, if_true]
      exact AgreesAt.look (w := fun _ => pure []) hm (fun _ => rfl) rfl
    · simp only [Option.bind_some, hk, mt hend.2 hk, if_false]
      have hne : (x.cursor m).rest ≠ [] := fun hnil => hk (hend.2 (by rw [hnil]; rfl))
      refine (agreesAt_programRound hm).bind fun s? m' hs hm'' _ hm' => ?_
      have hfewer := Parse.length_round_lt (d := x.cursor m') Parse.takes_statement (x.proper m) hne (Prod.ext hs hm'')
      rw [Text.rest_length, Text.rest_length] at hfewer
      have hprogram := ih (n := x.left m') (by omega)
      exact Agrees.agree m' hm' (Nat.le_refl _)

end Walk

end Ouroboros
