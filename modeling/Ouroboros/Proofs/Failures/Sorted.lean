/-
The order in which the faults of a text are shown.

Reading a text collects the faults of its tokens and those of the program that the tokens make. The former need not be in
the order of their places, for a string without an end is found behind the escapes in it. The latter are: they stand at
tokens, in the order of the tokens (`Program.ofTokens_places`), and tokens stand one behind the other. So the faults of a
program need no sorting when there are no others, and all together are put in order by a sort that keeps what is at one
place in its order (`Program.filter_inOrder`). `Program.ofSource_sorted` is the main result.
-/
import Ouroboros.Proofs.Parsing.Exact
import Ouroboros.Proofs.Parsing.Recording
import Ouroboros.Proofs.Scanning.Offsets
import Ouroboros.Session

namespace Ouroboros

namespace Pos

theorem not_before_trans {p q r : Pos} (h₁ : q.before p = false) (h₂ : r.before q = false) : r.before p = false := by
  rw [← Bool.not_eq_true, before_iff] at h₁ h₂ ⊢
  omega

theorem not_before_of_before {p q : Pos} (h : p.before q = true) : q.before p = false := by
  rw [before_iff] at h
  rw [← Bool.not_eq_true, before_iff]
  omega

end Pos

namespace Program

variable {source : Bytes} {tokens ts : List Token} {ds : List Diagnostic}

/-- no diagnostic lies before an earlier one of the list -/
def Sorted (ds : List Diagnostic) : Prop := ds.Pairwise fun a b => b.pos.before a.pos = false

/-! ## Sorting -/

theorem inOrder_trans (a b c : Diagnostic) (hab : !b.pos.before a.pos) (hbc : !c.pos.before b.pos) :
    !c.pos.before a.pos := by
  rw [Bool.not_eq_true'] at hab hbc ⊢
  exact Pos.not_before_trans hab hbc

theorem inOrder_total (a b : Diagnostic) : !b.pos.before a.pos || !a.pos.before b.pos := by
  cases h : b.pos.before a.pos with
  | false => rfl
  | true => rw [Pos.not_before_of_before h]; rfl

theorem sorted_inOrder (ds : List Diagnostic) : Sorted (inOrder ds) :=
  (List.pairwise_mergeSort inOrder_trans inOrder_total ds).imp fun h => by simpa using h

/-- sorting keeps what is at one place in its order -/
theorem filter_inOrder (ds : List Diagnostic) (p : Pos) :
    (inOrder ds).filter (fun d => d.pos = p) = ds.filter (fun d => d.pos = p) := by
  have hsame : (ds.filter fun d => d.pos = p).Pairwise fun a b => !b.pos.before a.pos := by
    refine List.pairwise_of_forall_mem_list fun a ha b hb => ?_
    simp only [List.mem_filter, decide_eq_true_eq] at ha hb
    rw [ha.2, hb.2, Pos.before_irrefl]
    rfl
  have hsub : (ds.filter fun d => d.pos = p).Sublist (inOrder ds) :=
    List.sublist_mergeSort inOrder_trans inOrder_total hsame List.filter_sublist
  have hfilter := hsub.filter fun d => d.pos = p
  simp only [List.filter_filter, Bool.and_self] at hfilter
  refine (hfilter.eq_of_length ?_).symm
  exact ((List.mergeSort_perm ds _).filter _).length_eq.symm

/-! ## Faults at tokens -/

/-- the faults stand at tokens with non-decreasing indices -/
def Follow (tokens : List Token) (ds : List Diagnostic) : Prop :=
  ∃ ks : List Nat, ks.Pairwise (· ≤ ·) ∧ List.Forall₂ (fun d k => ∃ t, tokens[k]? = some t ∧ d.IsAt t) ds ks

/-- an incomplete fault is the last one and stands at the last token -/
def EndsIncomplete (tokens : List Token) (ds : List Diagnostic) : Prop :=
  ∀ front d back, ds = front ++ d :: back → d.incomplete = true → back = [] ∧ ∃ t, tokens.getLast? = some t ∧ d.IsAt t

/-- faults at tokens that stand one behind the other are sorted -/
theorem Follow.sorted (h : Follow tokens ds) (ht : tokens.Pairwise fun x y => x.pos.before y.pos = true) : Sorted ds := by
  obtain ⟨ks, hks, hds⟩ := h
  refine List.pairwise_iff_getElem.2 fun i j hi hj hij => ?_
  have hlength := hds.length_eq
  obtain ⟨t, hti, hat⟩ := hds.get hi (hlength ▸ hi)
  obtain ⟨u, huj, hau⟩ := hds.get hj (hlength ▸ hj)
  have hle : ks[i] ≤ ks[j] := List.pairwise_iff_getElem.1 hks i j _ _ hij
  simp only [List.get_eq_getElem] at hti huj hat hau
  rw [hat.place, hau.place]
  rcases Nat.eq_or_lt_of_le hle with heq | hlt
  · rw [heq, huj] at hti
    rw [Option.some.inj hti]
    exact Pos.before_irrefl _
  · obtain ⟨hi', rfl⟩ := List.getElem?_eq_some_iff.1 hti
    obtain ⟨hj', rfl⟩ := List.getElem?_eq_some_iff.1 huj
    exact Pos.not_before_of_before (List.pairwise_iff_getElem.1 ht _ _ hi' hj' hlt)

variable {q : Pos} {d : Parse.Cursor} {new last : List Diagnostic}

theorem follow_of_sweep (h : Parse.Sweep ⟨ts, q, []⟩ d new last) : Follow (ts ++ [.finish q]) (new ++ last) := by
  obtain ⟨ks, hks, hlt, hnew⟩ := h.trail.places
  have hnew : List.Forall₂ (fun d k => ∃ t, (ts ++ [.finish q])[k]? = some t ∧ d.IsAt t) new ks := by
    refine hnew.imp fun e k ⟨t, ht, hat⟩ => ⟨t, ?_, hat⟩
    rw [List.getElem?_append_left (List.getElem?_eq_some_iff.1 ht).1]
    exact ht
  rcases h.final with rfl | ⟨e, rfl, hat⟩
  · exact ⟨ks, hks, by rwa [List.append_nil]⟩
  · refine ⟨ks ++ [ts.length], List.pairwise_append.2 ⟨hks, List.pairwise_singleton _ _, ?_⟩, ?_⟩
    · intro k hk j hj
      rw [List.mem_singleton.1 hj]
      exact Nat.le_of_lt (hlt k hk)
    · exact List.rel_append hnew (.cons ⟨_, by simp, hat⟩ .nil)

/-- only the fault at the end of the tokens is incomplete -/
theorem endsIncomplete_of_sweep (hts : ∀ t ∈ ts, t.kind ≠ .endOfInput) (h : Parse.Sweep ⟨ts, q, []⟩ d new last) :
    EndsIncomplete (ts ++ [.finish q]) (new ++ last) := by
  intro front e back heq hincomplete
  have hne : e ∉ new := by
    intro hmem
    obtain ⟨t, ht, hat⟩ := h.trail.exists_mem e hmem
    exact hts t ht (hat.incomplete.1 hincomplete)
  rcases h.final with rfl | ⟨x, rfl, hat⟩
  · refine absurd ?_ hne
    rw [List.append_nil] at heq
    simp [heq]
  · rcases List.eq_nil_or_concat back with rfl | ⟨back, y, rfl⟩
    · obtain ⟨-, hlast⟩ := List.append_inj' heq rfl
      obtain rfl : x = e := by simpa using hlast
      exact ⟨rfl, .finish q, List.getLast?_concat, hat⟩
    · refine absurd ?_ hne
      rw [List.concat_eq_append, ← List.cons_append, ← List.append_assoc] at heq
      rw [(List.append_inj' heq rfl).1]
      simp

/-- the faults of tokens with an end of input behind them, as one pass records them -/
theorem exists_sweep_finish (hts : ∀ t ∈ ts, t.kind ≠ .endOfInput) (q : Pos) : ∃ d new last,
    Parse.Sweep ⟨ts, q, []⟩ d new last ∧ (ofTokens (ts ++ [.finish q])).errors = new ++ last := by
  have hend : (Token.finish q).kind = .endOfInput := rfl
  have hcursor := cursor_append hts hend
  obtain ⟨stmts, d, new, last, hrun, hsweep⟩ := Parse.exists_sweep (c := ⟨ts, q, []⟩) hts (Nat.le_refl _)
  refine ⟨d, new, last, hsweep, ?_⟩
  simp only [ofTokens, hcursor]
  rw [show (Token.finish q).pos = q from rfl, hrun]
  exact hsweep.recorded

/-- the faults of the program that the tokens of a text make -/
theorem follow_scan (source : Bytes) : Follow (Token.scan source).tokens (ofTokens (Token.scan source).tokens).errors ∧
    EndsIncomplete (Token.scan source).tokens (ofTokens (Token.scan source).tokens).errors := by
  obtain ⟨ts, q, htokens, hts⟩ := Token.exists_tokens_eq .start source
  have hne : ∀ t ∈ ts, t.kind ≠ .endOfInput := fun t ht => (hts t ht).ne_end
  obtain ⟨d, new, last, hsweep, herrors⟩ := exists_sweep_finish hne q
  rw [Token.scan, htokens, herrors]
  exact ⟨follow_of_sweep hsweep, endsIncomplete_of_sweep hne hsweep⟩

/-! ## All faults of a text -/

theorem ofSource_errors_eq (source : Bytes) : (ofSource source).errors =
    inOrder ((Token.scan source).errors ++ (ofTokens (Token.scan source).tokens).errors) := by
  by_cases h : (Token.scan source).errors = []
  · have hsorted := (follow_scan source).1.sorted (Token.tokens_ordered .start source).2
    rw [ofSource_of_scan h, h, List.nil_append, inOrder]
    exact (List.mergeSort_of_pairwise (hsorted.imp fun hab => by rw [hab]; rfl)).symm
  · exact ofSource_errors h

/-- **Faults in order.** The faults of a text are sorted by line and column. They are those of its tokens and those of the
program that the tokens make, none lost and none twice; at each place the former come first, and both keep their order.
Those of the program alone follow the tokens, unsorted; at most one of them is incomplete, the last, and it stands at the
end. A program that has faults is refused with just these. -/
theorem ofSource_sorted (source : Bytes) : ∃ lexical syntactic, lexical = (Token.scan source).errors ∧
    syntactic = (ofTokens (Token.scan source).tokens).errors ∧
    Sorted (ofSource source).errors ∧ (ofSource source).errors.Perm (lexical ++ syntactic) ∧
    (∀ p, (ofSource source).errors.filter (fun d => d.pos = p) =
      lexical.filter (fun d => d.pos = p) ++ syntactic.filter fun d => d.pos = p) ∧
    Follow (Token.scan source).tokens syntactic ∧ EndsIncomplete (Token.scan source).tokens syntactic ∧
    ∀ (m : Machine) (scope : Option ScopeId), (ofSource source).errors ≠ [] →
      m.exec (ofSource source) scope = (.error (ofSource source).errors, m) := by
  refine ⟨_, _, rfl, rfl, ?_, ?_, fun p => ?_, (follow_scan source).1, (follow_scan source).2, fun m scope h => ?_⟩
  · rw [ofSource_errors_eq]
    exact sorted_inOrder _
  · rw [ofSource_errors_eq]
    exact List.mergeSort_perm _ _
  · rw [ofSource_errors_eq, filter_inOrder, List.filter_append]
  · exact m.exec_of_faulty (fun hs => h (List.isEmpty_iff.1 hs)) scope

end Program

end Ouroboros
