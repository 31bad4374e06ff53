/-
Programs one behind the other.

A program without faults in front of further tokens is read as if those tokens were not there, and they are read as if
they stood alone, however faulty they are (`ofTokens_append`). Only an `else` would be read differently: it belongs to a
choice in front of it. Statements end where their derivations end (`statements_append`), and the rounds that the tokens
in front leave over change nothing (`statements_rounds`).
-/
import Ouroboros.Proofs.Parsing.Exact
import Ouroboros.Proofs.Parsing.Progress

namespace Ouroboros

open Grammar

namespace Parse

/-- derivable tokens are read as their statements, whatever follows that is no `else` -/
theorem statements_append {ts rest : List Token} {ss : List Stmt} (h : Derives ts ss) (hrest : nextKind rest ≠ .elseWord)
    {p : Pos} {ds : List Diagnostic} (hproper : Cursor.Proper ⟨rest, p, ds⟩) {m n : Nat} (hm : rest.length ≤ m)
    (hn : (ts ++ rest).length ≤ n) : statements n ⟨ts ++ rest, p, ds⟩ =
      (statements m >>= fun others => pure (ss ++ others) : Reader (List Stmt)) ⟨rest, p, ds⟩ := by
  induction ss generalizing ts n with
  | nil =>
    cases h
    rw [List.nil_append] at hn ⊢
    rw [statements_rounds hproper hn hm]
    exact congrFun (bind_pure (statements m)).symm _
  | cons s ss ih =>
    cases h with
    | @cons ts us _ _ hs hss =>
      have hlead : nextKind (us ++ rest) ≠ .elseWord := by
        rw [nextKind_append]
        cases us with
        | nil => exact hrest
        | cons u us => exact nextKind_ne_else hss
      have hread := (Completes.statement (n := ts.length) hs).reads (Nat.le_refl _) (us ++ rest) p ds hlead
      obtain ⟨t, ts, rfl, -⟩ := hs.head
      simp only [List.length_append, List.length_cons] at hn
      obtain ⟨n, rfl⟩ : ∃ k, n = k + 1 := ⟨n - 1, by omega⟩
      rw [List.append_assoc, statements_ok (by simp) hread, Action.bind_apply, ih hss (by rw [List.length_append]; omega),
        Action.bind_apply, Action.bind_apply]
      rcases statements m ⟨rest, p, ds⟩ with ⟨e | others, d⟩ <;> rfl

end Parse

namespace Program

variable {ts us : List Token}

/-- tokens without an end of input in front of others are only put in front of what is to be read -/
theorem cursor_append_of_mem (hts : ∀ t ∈ ts, t.kind ≠ .endOfInput) (hus : ∃ t ∈ us, t.kind = .endOfInput) :
    cursor (ts ++ us) = ⟨ts ++ (cursor us).rest, (cursor us).finish, []⟩ := by
  have htake : (ts ++ us).takeWhile (·.kind ≠ .endOfInput) = ts ++ us.takeWhile (·.kind ≠ .endOfInput) :=
    List.takeWhile_append_of_pos (by simpa using hts)
  obtain ⟨t, vs, hdrop⟩ : ∃ t vs, us.drop (us.takeWhile (·.kind ≠ .endOfInput)).length = t :: vs := by
    refine List.exists_cons_of_ne_nil fun hnil => ?_
    obtain ⟨t, ht, hend⟩ := hus
    have hall : us.takeWhile (·.kind ≠ .endOfInput) = us :=
      (List.takeWhile_prefix _).eq_of_length_le (List.drop_eq_nil_iff.1 hnil)
    rw [← hall] at ht
    exact absurd hend (by simpa using List.mem_takeWhile_imp ht)
  simp only [cursor, htake, List.length_append, List.drop_length_add_append, hdrop]

/-- the next token of some tokens is their first -/
theorem nextKind_cursor (hus : ∀ t ∈ us.head?, t.kind ≠ .elseWord) : Parse.nextKind (cursor us).rest ≠ .elseWord := by
  cases us with
  | nil => exact nofun
  | cons t us =>
    by_cases hend : t.kind = .endOfInput
    · simp [cursor, hend, Parse.nextKind, Parse.leadKind]
    · simpa [cursor, hend, Parse.nextKind, Parse.leadKind] using hus

/-- **Programs compose.** Tokens that are read without a fault stand in front of tokens that hold an end of input and do
not start with `else`. Together they are read as the statements of the ones and then those of the others, with just the
faults of the others. -/
theorem ofTokens_append (ts us : List Token) (e : Token) (hts : ∀ t ∈ ts, t.kind ≠ .endOfInput)
    (he : e.kind = .endOfInput) (hsound : (ofTokens (ts ++ [e])).errors = []) (hend : ∃ t ∈ us, t.kind = .endOfInput)
    (helse : ∀ t ∈ us.head?, t.kind ≠ .elseWord) :
    ofTokens (ts ++ us) = ⟨(ofTokens (ts ++ [e])).stmts ++ (ofTokens us).stmts, (ofTokens us).errors⟩ := by
  have hderives := derives_of_errors_nil hts he hsound
  have hproper : Parse.Cursor.Proper ⟨(cursor us).rest, (cursor us).finish, []⟩ := cursor_proper us
  have hread := Parse.statements_append hderives (nextKind_cursor helse) hproper (Nat.le_refl _) (Nat.le_refl _)
  obtain ⟨stmts, d, new, hpass, hprogram⟩ := exists_pass_cursor us
  have hrest : Parse.statements (cursor us).rest.length ⟨(cursor us).rest, (cursor us).finish, []⟩ = (.ok stmts, d) :=
    hpass.run
  rw [Action.bind_apply, hrest] at hread
  simp only [hprogram]
  rw [ofTokens, cursor_append_of_mem hts hend]
  simp only [hread]
  have hnew : d.recorded = new := hpass.recorded
  rw [← hnew]
  rfl

/-- a choice in front of a broken call and a statement, with an end of input between the two -/
theorem ofTokens_append_choice :
    ofTokens (((Token.scan (text "if (x) \x7b f(); \x7d")).tokens.take 10) ++
        ((Token.scan (text "g(; y = 1;")).tokens ++ (Token.scan (text "z;")).tokens)) =
      ⟨(ofTokens ((Token.scan (text "if (x) \x7b f(); \x7d")).tokens.take 10 ++ [.finish .start])).stmts ++
          (ofTokens ((Token.scan (text "g(; y = 1;")).tokens ++ (Token.scan (text "z;")).tokens)).stmts,
        (ofTokens ((Token.scan (text "g(; y = 1;")).tokens ++ (Token.scan (text "z;")).tokens)).errors⟩ :=
  ofTokens_append _ _ (.finish .start) (by decide +kernel) rfl (by decide +kernel)
    (by decide +kernel) (by decide +kernel)

end Program

end Ouroboros
