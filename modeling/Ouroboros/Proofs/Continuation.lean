/-
Which programs a further line can mend.

The prompt asks for another line when the first fault of the text says that the text ended too early, and not inside a
string. `needsMore_iff` is the main result: it asks exactly when some text on further lines makes the program faultless.

If it asks, no fault is lexical: faults are in the order of their places, a lexical fault lies before the end of the
text, and a syntax fault that is due to the end lies at the end. Then the tokens are the start of a program, and what is
missing can be written on the next line. Conversely, a fault of the scanner stays whatever follows, and on a start of a
program the only fault is that it ends.
-/
import Ouroboros.Proofs.Failures.Sorted
import Ouroboros.Proofs.Parsing.Exact
import Ouroboros.Proofs.Places
import Ouroboros.Proofs.Scanning.Lines
import Ouroboros.Proofs.Scanning.Writing
import Ouroboros.Prompt.Input

namespace Ouroboros

open Token Grammar Program

/-! ## The first fault -/

/-- no fault lies before the first one -/
theorem Program.not_before_first {ds rest : List Diagnostic} {d : Diagnostic} (h : inOrder ds = d :: rest) :
    d ∈ ds ∧ ∀ e ∈ ds, e.pos.before d.pos = false := by
  have hmem : ∀ e, e ∈ d :: rest ↔ e ∈ ds := by
    intro e
    rw [← h]
    exact List.mem_mergeSort
  have hsorted : Sorted (d :: rest) := h ▸ sorted_inOrder ds
  refine ⟨(hmem d).1 List.mem_cons_self, fun e he => ?_⟩
  rcases List.mem_cons.1 ((hmem e).2 he) with rfl | he
  · exact Pos.before_irrefl _
  · exact List.rel_of_pairwise_cons hsorted he

namespace Prompt

variable {source t : Bytes}

/-- another line is asked for when the first fault is incomplete and no open string -/
theorem needsMore_iff_first {ds : List Diagnostic} :
    needsMore ds = true ↔ ∃ d rest, ds = d :: rest ∧ d.incomplete = true ∧ d.kind ≠ .unterminatedString := by
  cases ds with
  | nil => simp [needsMore, isIncomplete]
  | cons d rest => simp [needsMore, isIncomplete, firstKind?]

/-- a syntax fault is no open string -/
theorem ne_unterminatedString {d : Diagnostic} (h : d.kind.phase = .parsing) : d.kind ≠ .unterminatedString := by
  intro hkind
  rw [hkind] at h
  cases h

/-- where another line is asked for, the scanner found no fault -/
theorem scan_errors_of_needsMore (h : needsMore (ofSource source).errors = true) : (scan source).errors = [] := by
  by_contra hne
  obtain ⟨ts, q, htokens, hts⟩ := exists_tokens_eq .start source
  have hlexical := scanFrom_passes htokens
  obtain ⟨stmts, d, new, hpass, hprogram⟩ := exists_pass_finish hts q
  have herrors : (ofSource source).errors = inOrder ((scan source).errors ++ new) := by
    rw [ofSource_errors hne, scan, htokens, hprogram]
  rw [herrors] at h
  obtain ⟨first, rest, hfirst, hincomplete, hkind⟩ := needsMore_iff_first.1 h
  obtain ⟨hmem, hbefore⟩ := not_before_first hfirst
  rcases List.mem_append.1 hmem with hmem | hmem
  · exact hkind (hlexical.unfinished first hmem hincomplete)
  · -- a syntax fault that is due to the end is at the end, behind the faults of the scanner
    obtain ⟨e, he⟩ := List.exists_mem_of_ne_nil _ hne
    have hplace : first.pos = q := hpass.place first hmem hincomplete
    have hfinish := hlexical.before e he
    rw [← hplace, hbefore e (List.mem_append_left _ he)] at hfinish
    cases hfinish

/-! ## The next line -/

/-- the tokens of a text without lexical faults stay when it goes on on a new line -/
theorem scan_line (h : (scan source).errors = []) :
    ∃ ts q, scan source = ⟨ts ++ [.finish q], []⟩ ∧ (∀ u ∈ ts, u.IsSpelled) ∧
      ∀ t, scan (source ++ Bytes.newline :: t) =
        ⟨ts ++ (scanFrom q (Bytes.newline :: t)).tokens, (scanFrom q (Bytes.newline :: t)).errors⟩ := by
  obtain ⟨ts, q, htokens, hts⟩ := exists_tokens_eq .start source
  have herrors : (scanFrom .start source).errors = [] := h
  refine ⟨ts, q, ?_, hts, fun t => ?_⟩
  · rw [← htokens, ← h]
    rfl
  · obtain ⟨ts', q', htokens', hline⟩ := scanFrom_line (t := t) .start source (by simp [LeavesOpen, herrors])
    rw [htokens] at htokens'
    obtain ⟨rfl, hlast⟩ := List.append_inj' htokens' rfl
    obtain rfl : q = q' := by simpa [finish] using hlast
    rw [herrors, List.nil_append] at hline
    exact hline

/-- what is missing can be written on the next line -/
theorem exists_line_of_needsMore (h : needsMore (ofSource source).errors = true) :
    ∃ t, (ofSource (source ++ Bytes.newline :: t)).errors = [] := by
  have hlexical := scan_errors_of_needsMore h
  obtain ⟨ts, q, hscan, hts, hline⟩ := scan_line hlexical
  obtain ⟨stmts, d, new, hpass, hprogram⟩ := exists_pass_finish hts q
  rw [ofSource_of_scan hlexical, hscan, hprogram] at h
  obtain ⟨first, rest, rfl, hincomplete, -⟩ := needsMore_iff_first.1 h
  obtain ⟨us, ss, hus, hderives⟩ := hpass.mend first rfl hincomplete
  -- the missing tokens, written down and read again
  have hwrites : Closed (Bytes.newline :: written us) (us.map plain) :=
    (closed_blank (b := Bytes.newline) rfl).append (closed_written hus)
  obtain ⟨herrors, vs, r, htokens, hvs⟩ := scanFrom_of_writes hwrites trivial q
  have hplain : (ts ++ vs).map plain = (ts ++ us).map plain := by rw [List.map_append, List.map_append, hvs]
  obtain ⟨ss', hss', -⟩ := hderives.transfer hplain
  have hscan' : scan (source ++ Bytes.newline :: written us) = ⟨(ts ++ vs) ++ [.finish r], []⟩ := by
    rw [hline, herrors, htokens, List.append_assoc]
  exact ⟨written us, by rw [ofSource_of_derives hscan' hss']⟩

/-- a text that a further line mends is a start of a program -/
theorem needsMore_of_line (h : (ofSource source).errors ≠ [])
    (ht : (ofSource (source ++ Bytes.newline :: t)).errors = []) : needsMore (ofSource source).errors = true := by
  have hlexical : (scan source).errors = [] := by
    by_contra hne
    exact errors_line_ne_nil .start source hne (scan_errors_of_errors_nil ht)
  obtain ⟨ts, q, hscan, hts, hline⟩ := scan_line hlexical
  obtain ⟨ws, r, hscan', -, hderives⟩ := exists_derives_of_errors_nil ht
  obtain ⟨vs, r', hvs, -⟩ := exists_tokens_eq q (Bytes.newline :: t)
  have hprefix : ts <+: ws := by
    have htokens := congrArg Scan.tokens ((hline t).symm.trans hscan')
    rw [hvs, ← List.append_assoc] at htokens
    obtain ⟨heq, -⟩ := List.append_inj' htokens rfl
    exact ⟨vs, heq⟩
  obtain ⟨stmts, d, new, hpass, hprogram⟩ := exists_pass_finish hts q
  rw [ofSource_of_scan hlexical, hscan, hprogram] at h ⊢
  obtain ⟨stmts', d', hrun, hrecorded⟩ := Parse.statements_start hderives hprefix ts.length q []
  obtain ⟨-, rfl⟩ : stmts = stmts' ∧ d = d' := by simpa using hpass.run.symm.trans hrun
  have hnew : d.recorded = new := hpass.recorded
  rcases hrecorded with hnone | ⟨e, hone, hincomplete⟩
  · exact absurd (hnew.symm.trans hnone) h
  · obtain rfl : new = [e] := hnew.symm.trans hone
    exact needsMore_iff_first.2 ⟨e, [], rfl, hincomplete, ne_unterminatedString (hpass.blames e (by simp)).phase⟩

/-- **Asking for more.** Of the programs with faults, the prompt asks for another line after exactly those that some text
on further lines makes faultless. -/
theorem needsMore_iff (source : Bytes) (h : (ofSource source).errors ≠ []) :
    needsMore (ofSource source).errors = true ↔ ∃ t, (ofSource (source ++ Bytes.newline :: t)).errors = [] :=
  ⟨exists_line_of_needsMore, fun ⟨_, ht⟩ => needsMore_of_line h ht⟩

/-- an open block and an unfinished range -/
theorem needsMore_iff_block :
    ∃ t, (ofSource (text "fn f() \x7b for i in 0.." ++ Bytes.newline :: t)).errors = [] :=
  (needsMore_iff (text "fn f() \x7b for i in 0..") (by decide +kernel)).1 (by decide +kernel)

end Prompt

end Ouroboros
