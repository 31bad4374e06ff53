/-
Recovery always makes progress.

The reader over indices does not bound its loops by the tokens, nor its index, and gives `none` when it looks outside the
tokens or needs deeper calls (`Walk.parse`). It ends with the program that the tokens make, whatever the tokens are:
without an end of input or with several, with braces that do not match, with unknown tokens. Each round of its loops over
statements gets on or ends the loop, and there are no more faults than tokens in front of the end.
-/
import Ouroboros.Proofs.Parsing.Exact
import Ouroboros.Proofs.Parsing.Recording
import Ouroboros.Proofs.Parsing.Rounds

namespace Ouroboros

namespace Walk

variable {tokens : List Token}

/-- the tokens in front of the first end of input -/
def front (tokens : List Token) : List Token := tokens.takeWhile (·.kind ≠ .endOfInput)

theorem front_kind (tokens : List Token) : ∀ t ∈ front tokens, t.kind ≠ .endOfInput := Program.cursor_proper tokens

/-- only an end of input may be missing -/
theorem closed_eq (tokens : List Token) : ∃ extra, closed tokens = tokens ++ extra := by
  unfold closed
  split
  · rename_i hlast
    exact ⟨_, by rw [List.getLast?_eq_none_iff.1 hlast]; rfl⟩
  · split
    · exact ⟨[], (List.append_nil _).symm⟩
    · exact ⟨_, rfl⟩

/-- without an end of input among the tokens the closing one stands where reading ends -/
theorem closed_of_front (h : front tokens = tokens) :
    closed tokens = tokens ++ [.finish (Program.cursor tokens).finish] := by
  have hrest : tokens.takeWhile (·.kind ≠ .endOfInput) = tokens := h
  simp only [Program.cursor, hrest, List.drop_length]
  unfold closed
  cases hlast : tokens.getLast? with
  | none => rw [List.getLast?_eq_none_iff.1 hlast]; rfl
  | some t =>
    have ht := front_kind tokens t (by rw [h]; exact List.mem_of_getLast? hlast)
    exact if_neg ht

/-- with an end of input reading ends there -/
theorem cursor_of_back {t : Token} {back : List Token} (h : tokens = front tokens ++ t :: back) :
    Program.cursor tokens = ⟨front tokens, t.pos, []⟩ := by
  have hdrop := congrArg (List.drop (front tokens).length) h
  rw [List.drop_left, front] at hdrop
  simp only [Program.cursor, hdrop]
  rfl

/-- closed, the tokens are a text, and reading starts at its first mark -/
theorem exists_text (tokens : List Token) : ∃ x : Text, x.body = front tokens ∧ x.tokens = closed tokens ∧
    x.cursor ⟨0, []⟩ = Program.cursor tokens := by
  have happend : front tokens ++ tokens.dropWhile (·.kind ≠ .endOfInput) = tokens := List.takeWhile_append_dropWhile
  have hkind := List.head?_dropWhile_not (fun t : Token => decide (t.kind ≠ .endOfInput)) tokens
  cases hback : tokens.dropWhile (·.kind ≠ .endOfInput) with
  | nil =>
    rw [hback, List.append_nil] at happend
    let x : Text := ⟨front tokens, .finish (Program.cursor tokens).finish, [], front_kind tokens, rfl⟩
    refine ⟨x, rfl, ?_, rfl⟩
    rw [closed_of_front happend]
    exact congrArg (· ++ _) happend
  | cons t back =>
    rw [hback] at happend hkind
    obtain ⟨extra, hextra⟩ := closed_eq tokens
    let x : Text := ⟨front tokens, t, back ++ extra, front_kind tokens, by simpa using hkind⟩
    refine ⟨x, rfl, ?_, (cursor_of_back happend.symm).symm⟩
    calc x.tokens = (front tokens ++ t :: back) ++ extra := by simp [Text.tokens, x]
      _ = closed tokens := by rw [happend, hextra]

/-- a pass over the tokens by their indices reads the program that they make -/
theorem ends_parse (tokens : List Token) : Ends (parse tokens) (Program.ofTokens tokens) := by
  obtain ⟨x, -, htokens, hcursor⟩ := exists_text tokens
  obtain ⟨stmts, d, -, -, hpass, -⟩ := Parse.exists_sweep (Program.cursor_proper tokens) (Nat.le_refl _)
  have hleft : x.left ⟨0, []⟩ ≤ (Program.cursor tokens).rest.length := by rw [← hcursor, Text.rest_length]
  obtain ⟨m', hends, hm', -, -⟩ := (agrees_program (Nat.le_refl _)).agree ⟨0, []⟩ (Nat.zero_le _) hleft
  rw [htokens, hcursor, hpass] at hends
  rw [hcursor, hpass] at hm'
  obtain rfl : d = x.cursor m' := hm'
  have hprogram : Program.ofTokens tokens = ⟨stmts, m'.recorded⟩ := by
    simp only [Program.ofTokens, hpass]
    rfl
  rw [hprogram]
  exact hends.bind (f := fun out _ => _) (.of_eq fun _ => rfl)

/-- a fault is recorded for a token in front of the first end of input -/
theorem length_errors_le (tokens : List Token) : (Program.ofTokens tokens).errors.length ≤ (front tokens).length := by
  obtain ⟨stmts, d, new, last, hpass, hsweep⟩ := Parse.exists_sweep (Program.cursor_proper tokens) (Nat.le_refl _)
  have herrors : (Program.ofTokens tokens).errors = new ++ last := by
    simp only [Program.ofTokens, hpass]
    exact hsweep.recorded
  rw [herrors]
  exact hsweep.few

/-! ## Rounds -/

variable {x : Text} {m : Mark} {w : Nat → Walker (Option Stmt)} {ends : Diagnostic → Bool}

/-- a round takes a token, or a fault ends the loop -/
theorem exists_round (h : AgreesAt x m w (Parse.round ends Parse.statement)) (hm : m.index < x.body.length) :
    ∃ out m', Ends (fun k => w k x.tokens m) (out, m') ∧ m'.index ≤ x.body.length ∧
      ((∃ s?, out = .ok s?) ∧ m.index < m'.index ∨ ∃ e, out = .error e ∧ ends e = true) := by
  obtain ⟨m', hends, hcursor, hle, hm'⟩ := h
  refine ⟨_, m', hends, hm', ?_⟩
  rcases hround : Parse.round ends Parse.statement (x.cursor m) with ⟨e | s?, d⟩
  · exact Or.inr ⟨e, rfl, Parse.ends_of_round hround⟩
  · rw [hround] at hcursor
    obtain rfl : d = x.cursor m' := hcursor
    have hne : (x.cursor m).rest ≠ [] := by
      rw [← List.length_pos_iff, Text.rest_length, Text.left]
      omega
    have hfewer := Parse.length_round_lt Parse.takes_statement (x.proper m) hne hround
    rw [Text.rest_length, Text.rest_length, Text.left, Text.left] at hfewer
    exact Or.inl ⟨⟨s?, rfl⟩, by omega⟩

/-- **Recovery always makes progress.** Whatever the tokens are, reading them by their indices ends, looks at no token
outside the list, and gives the program that they make. A round of the loop over the statements of a program takes a
token, and a round of the loop over those of a block takes a token or ends all open blocks with an incomplete fault;
neither leaves the first end of input behind. There are at most as many faults as tokens in front of it. -/
theorem parse_progress (tokens : List Token) : Ends (parse tokens) (Program.ofTokens tokens) ∧
    (∀ m : Mark, m.index < (front tokens).length → ∃ s? m',
      Ends (fun k => programRound k (closed tokens) m) (.ok s?, m') ∧
      m.index < m'.index ∧ m'.index ≤ (front tokens).length) ∧
    (∀ m : Mark, m.index < (front tokens).length → ∃ out m',
      Ends (fun k => blockRound k (closed tokens) m) (out, m') ∧ m'.index ≤ (front tokens).length ∧
      ((∃ s?, out = .ok s?) ∧ m.index < m'.index ∨ ∃ e, out = .error e ∧ e.incomplete = true)) ∧
    (Program.ofTokens tokens).errors.length ≤ (front tokens).length := by
  obtain ⟨x, hbody, htokens, -⟩ := exists_text tokens
  rw [← hbody, ← htokens]
  refine ⟨ends_parse tokens, fun m hm => ?_, fun m hm => ?_, hbody ▸ length_errors_le tokens⟩
  · obtain ⟨out, m', hends, hm', ⟨⟨s?, rfl⟩, hlt⟩ | ⟨e, -, hfalse⟩⟩ :=
      exists_round (agreesAt_programRound (Nat.le_of_lt hm)) hm
    · exact ⟨s?, m', hends, hlt, hm'⟩
    · exact absurd hfalse Bool.false_ne_true
  · exact exists_round (agreesAt_blockRound (Nat.le_of_lt hm)) hm

/-- braces in any order, and no end of input: two of them are stray -/
example : (parse ([.rightBrace, .leftBrace, .rightBrace, .rightBrace].map fun kind => ⟨kind, [], .none, .start⟩) 20).map
    (fun p => (p.stmts.length, p.errors.length)) = some (1, 2) := by decide

end Walk

end Ouroboros
