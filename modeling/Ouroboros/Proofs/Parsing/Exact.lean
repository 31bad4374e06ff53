/-
The reader of programs decides the grammar.

`ofTokens_exact` is the main result: tokens are read without a fault if and only if the grammar derives a program from
them, that program is then the one read and the only one, and it gives back the tokens. Soundness comes from `exists_pass`,
completeness and uniqueness from `statements_derives`.
-/
import Ouroboros.Proofs.Flatten
import Ouroboros.Proofs.Parsing.Complete
import Ouroboros.Proofs.Scanning.Pieces

namespace Ouroboros

/-- the token has the text and the payload of a token that some source text is read as -/
def Token.IsScanned (t : Token) : Prop :=
  ∃ source, ∃ u ∈ (Token.scan source).tokens, u.kind = t.kind ∧ u.lexeme = t.lexeme ∧ u.literal = t.literal

/-- a token of a source text is spelled, unless it is the end -/
theorem Token.IsScanned.isSpelled {t : Token} (h : t.IsScanned) (hne : t.kind ≠ .endOfInput) : t.IsSpelled := by
  obtain ⟨source, u, hu, hkind, hlexeme, hliteral⟩ := h
  obtain ⟨ts, q, heq, hts⟩ := Token.exists_tokens_eq .start source
  rw [Token.scan, heq] at hu
  rcases List.mem_append.1 hu with hu | hu
  · have := hts u hu
    rwa [Token.IsSpelled, hkind, hlexeme, hliteral] at this
  · rw [List.mem_singleton.1 hu] at hkind
    exact absurd hkind.symm hne

namespace Program

open Grammar

variable {ts : List Token} {eof : Token}

/-- the tokens in front of the end, and its place -/
theorem cursor_append (hts : ∀ t ∈ ts, t.kind ≠ .endOfInput) (heof : eof.kind = .endOfInput) :
    cursor (ts ++ [eof]) = ⟨ts, eof.pos, []⟩ := by
  have htake : (ts ++ [eof]).takeWhile (·.kind ≠ .endOfInput) = ts := by
    rw [List.takeWhile_append_of_pos (by simpa using hts)]
    simp [heof]
  simp only [cursor, htake, List.drop_left]

theorem cursor_proper (tokens : List Token) : (cursor tokens).Proper := by
  intro t ht
  simpa using List.mem_takeWhile_imp ht

/-- what reading tokens gives, as one pass over them -/
theorem exists_pass_cursor (tokens : List Token) : ∃ stmts d new,
    Parse.Pass (cursor tokens).rest.length (cursor tokens) stmts d new ∧ ofTokens tokens = ⟨stmts, new⟩ := by
  obtain ⟨stmts, d, new, hpass⟩ := Parse.exists_pass (cursor tokens).rest.length _ (cursor_proper tokens)
  refine ⟨stmts, d, new, hpass, ?_⟩
  simp only [ofTokens, hpass.run, hpass.recorded]
  rfl

/-- the same for tokens with an end behind them -/
theorem exists_pass_ofTokens (hts : ∀ t ∈ ts, t.kind ≠ .endOfInput) (heof : eof.kind = .endOfInput) :
    ∃ stmts d new, Parse.Pass ts.length ⟨ts, eof.pos, []⟩ stmts d new ∧ ofTokens (ts ++ [eof]) = ⟨stmts, new⟩ := by
  have hpass := exists_pass_cursor (ts ++ [eof])
  rwa [cursor_append hts heof] at hpass

/-- the same for the tokens of a text -/
theorem exists_pass_finish (hts : ∀ t ∈ ts, t.IsSpelled) (q : Pos) :
    ∃ stmts d new, Parse.Pass ts.length ⟨ts, q, []⟩ stmts d new ∧ ofTokens (ts ++ [.finish q]) = ⟨stmts, new⟩ := by
  have heof : (Token.finish q).kind = .endOfInput := rfl
  exact exists_pass_ofTokens (fun t ht => (hts t ht).ne_end) heof

theorem ofTokens_of_derives (hts : ∀ t ∈ ts, t.kind ≠ .endOfInput) (heof : eof.kind = .endOfInput)
    {stmts : List Stmt} (h : Derives ts stmts) : ofTokens (ts ++ [eof]) = ⟨stmts, []⟩ := by
  simp only [ofTokens, cursor_append hts heof, Parse.statements_derives h ts.length (Nat.le_refl _) eof.pos []]

theorem derives_of_errors_nil (hts : ∀ t ∈ ts, t.kind ≠ .endOfInput) (heof : eof.kind = .endOfInput)
    (h : (ofTokens (ts ++ [eof])).errors = []) : Derives ts (ofTokens (ts ++ [eof])).stmts := by
  obtain ⟨stmts, d, new, hpass, hprogram⟩ := exists_pass_ofTokens hts heof
  rw [hprogram] at h ⊢
  exact hpass.sound h (Nat.le_refl _)

/-! ## Source text -/

variable {source : Bytes} {q : Pos}

/-- lexical faults are faults of the program -/
theorem ofSource_errors (h : (Token.scan source).errors ≠ []) : (ofSource source).errors =
    inOrder ((Token.scan source).errors ++ (ofTokens (Token.scan source).tokens).errors) := by
  cases herrors : (Token.scan source).errors with
  | nil => exact absurd herrors h
  | cons d ds => simp only [ofSource, herrors]

theorem scan_errors_of_errors_nil (h : (ofSource source).errors = []) : (Token.scan source).errors = [] := by
  by_contra hne
  have hlength := congrArg List.length h
  rw [ofSource_errors hne, inOrder, List.length_mergeSort, List.length_append, List.length_nil] at hlength
  exact hne (List.length_eq_zero_iff.1 (Nat.eq_zero_of_add_eq_zero_right hlength))

theorem ofSource_of_scan (h : (Token.scan source).errors = []) :
    ofSource source = ofTokens (Token.scan source).tokens := by
  simp only [ofSource, h]

theorem ofSource_of_derives (hscan : Token.scan source = ⟨ts ++ [.finish q], []⟩) {stmts : List Stmt}
    (h : Derives ts stmts) : ofSource source = ⟨stmts, []⟩ := by
  obtain ⟨ts', q', htokens, hts⟩ := Token.exists_tokens_eq .start source
  rw [← Token.scan, hscan] at htokens
  obtain ⟨rfl, -⟩ := List.append_inj' htokens rfl
  rw [ofSource_of_scan (by rw [hscan]), hscan]
  exact ofTokens_of_derives (fun t ht => (hts t ht).ne_end) rfl h

/-- the tokens of a faultless text, and their derivation -/
theorem exists_derives_of_errors_nil (h : (ofSource source).errors = []) :
    ∃ ts q, Token.scan source = ⟨ts ++ [.finish q], []⟩ ∧ (∀ t ∈ ts, t.IsSpelled) ∧
      Derives ts (ofSource source).stmts := by
  obtain ⟨ts, q, htokens, hts⟩ := Token.exists_tokens_eq .start source
  have herrors := scan_errors_of_errors_nil h
  have hscan : Token.scan source = ⟨ts ++ [.finish q], []⟩ := by
    rw [← htokens, ← herrors]
    rfl
  rw [ofSource_of_scan herrors, hscan] at h ⊢
  exact ⟨ts, q, rfl, hts, derives_of_errors_nil (fun t ht => (hts t ht).ne_end) rfl h⟩

/-! ## The grammar decided -/

/-- **Exactness.** Tokens with one end of input, the last, are read without a fault exactly when the grammar derives a
program from them. The program derived is the one read, no other is derived, and its tokens are those given, up to places
and the way strings are written. -/
theorem ofTokens_exact (ts : List Token) (eof : Token) (hts : ∀ t ∈ ts, t.kind ≠ .endOfInput)
    (heof : eof.kind = .endOfInput) (hscanned : ∀ t ∈ ts, t.IsScanned) :
    ((ofTokens (ts ++ [eof])).errors = [] ↔ ∃ stmts, Derives ts stmts) ∧
    ∀ stmts, Derives ts stmts →
      (ofTokens (ts ++ [eof])).stmts = stmts ∧ (∀ stmts', Derives ts stmts' → stmts' = stmts) ∧
        Stmt.tokensAll stmts = ts.map Token.plain := by
  refine ⟨⟨fun h => ⟨_, derives_of_errors_nil hts heof h⟩, ?_⟩, ?_⟩
  · rintro ⟨stmts, h⟩
    rw [ofTokens_of_derives hts heof h]
  · intro stmts h
    have hread := ofTokens_of_derives hts heof h
    refine ⟨by rw [hread], fun stmts' h' => ?_, ?_⟩
    · have hread' := ofTokens_of_derives hts heof h'
      rw [hread] at hread'
      exact (congrArg Program.stmts hread').symm
    · exact flatten_stmt h fun t ht => (hscanned t ht).isSpelled (hts t ht)

/-- a call with a numeral, its tokens taken from its text -/
theorem ofTokens_exact_call : ∃ stmts, Derives ((Token.scan (text "f(1);")).tokens.take 5) stmts := by
  have hall : ∀ t ∈ (Token.scan (text "f(1);")).tokens.take 5, t.IsScanned := fun t ht =>
    ⟨text "f(1);", t, List.mem_of_mem_take ht, rfl, rfl, rfl⟩
  exact (ofTokens_exact _ (.finish .start) (by decide +kernel) rfl hall).1.1 (by decide +kernel)

end Program

end Ouroboros
