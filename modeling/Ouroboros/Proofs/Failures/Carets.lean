/-
Where carets stand.

A report shows the line of a diagnostic behind a gutter with the line's number, and right below it a line with a caret
(`Diagnostic.gutter`, `Diagnostic.caretLine`). The gutter is four digits wide and grows when the number has more; the space
in front of the caret is fixed. So the caret stands under the column up to line 9999, and to the left of it in longer
sources, by one byte for each further digit: `Failure.report_marks`.
-/
import Ouroboros.Proofs.Failures.Pointing
import Ouroboros.Proofs.Numerals

namespace Ouroboros

namespace Bytes

/-! ## Lines of texts -/

theorem lines_append (t u : Bytes) : lines (t ++ newline :: u) = lines t ++ lines u := by
  induction t with
  | nil => rfl
  | cons b t ih =>
    rw [List.cons_append, lines, lines]
    by_cases hb : b = newline
    · rw [if_pos hb, if_pos hb, ih, List.cons_append]
    · rw [if_neg hb, if_neg hb, ih]
      have hlength := length_lines t
      cases hlines : lines t with
      | nil => simp [hlines] at hlength
      | cons line others => rfl

theorem lines_of_not_mem {t : Bytes} (h : newline ∉ t) : lines t = [t] := by
  induction t with
  | nil => rfl
  | cons b t ih =>
    rw [List.mem_cons, not_or] at h
    rw [lines, if_neg (Ne.symm h.1), ih h.2]

theorem newline_not_mem_lines {t line : Bytes} (h : line ∈ lines t) : newline ∉ line := by
  induction t generalizing line with
  | nil =>
    obtain rfl := List.mem_singleton.mp h
    exact List.not_mem_nil
  | cons b t ih =>
    rw [lines] at h
    split at h
    · rcases List.mem_cons.mp h with rfl | h
      · exact List.not_mem_nil
      · exact ih h
    · rename_i hb
      cases hlines : lines t with
      | nil =>
        rw [hlines] at h
        obtain rfl := List.mem_singleton.mp h
        exact mt List.mem_singleton.mp (Ne.symm hb)
      | cons first others =>
        rw [hlines] at h ih
        rcases List.mem_cons.mp h with rfl | h
        · rw [List.mem_cons, not_or]
          exact ⟨Ne.symm hb, ih List.mem_cons_self⟩
        · exact ih (List.mem_cons_of_mem _ h)

/-- a text in which two whole lines stand one below the other -/
theorem lines_between {line next : Bytes} (hline : newline ∉ line) (hnext : newline ∉ next) (above : Bytes)
    {below : Bytes} (hbelow : below = [] ∨ ∃ rest, below = newline :: rest) :
    ∃ i, (lines (above ++ newline :: (line ++ newline :: (next ++ below))))[i]? = some line ∧
      (lines (above ++ newline :: (line ++ newline :: (next ++ below))))[i + 1]? = some next := by
  have hnexts : ∃ rest, lines (next ++ below) = next :: rest := by
    rcases hbelow with rfl | ⟨rest, rfl⟩
    · exact ⟨[], by rw [List.append_nil, lines_of_not_mem hnext]⟩
    · exact ⟨lines rest, by rw [lines_append, lines_of_not_mem hnext, List.singleton_append]⟩
  obtain ⟨rest, hrest⟩ := hnexts
  refine ⟨(lines above).length, ?_⟩
  rw [lines_append, lines_append, lines_of_not_mem hline, hrest]
  simp

/-- trimming stops at the last byte that is kept -/
theorem trimRight_append {cut : UInt8 → Bool} {b : UInt8} (hb : cut b = false) (t u : Bytes) :
    trimRight cut (t ++ b :: u) = t ++ b :: trimRight cut u := by
  have hstop : List.dropWhile cut (b :: t.reverse) = b :: t.reverse := by
    rw [List.dropWhile_cons, hb]
    rfl
  simp only [trimRight, List.reverse_append, List.reverse_cons, List.append_assoc, List.singleton_append]
  rw [List.dropWhile_append]
  split
  · rename_i hempty
    rw [hstop, List.isEmpty_iff.mp hempty]
    simp
  · simp

theorem trimRight_newline (t : Bytes) :
    trimRight (· == newline) (newline :: t) = [] ∨ ∃ rest, trimRight (· == newline) (newline :: t) = newline :: rest := by
  simp only [trimRight, List.reverse_cons, List.dropWhile_append]
  split
  · exact .inl rfl
  · exact .inr ⟨_, by rw [List.reverse_append]; rfl⟩

theorem exists_join {t : Bytes} {ts : List Bytes} (h : t ∈ ts) (sep : Bytes) :
    ∃ above below, join sep ts = above ++ t ++ below := by
  induction ts with
  | nil => cases h
  | cons first rest ih =>
    cases rest with
    | nil =>
      obtain rfl := List.mem_singleton.mp h
      exact ⟨[], [], by rw [join, List.nil_append, List.append_nil]⟩
    | cons second rest =>
      rcases List.mem_cons.mp h with rfl | h
      · exact ⟨[], sep ++ join sep (second :: rest), List.append_assoc ..⟩
      · obtain ⟨above, below, hjoin⟩ := ih h
        refine ⟨first ++ sep ++ above, below, ?_⟩
        change first ++ sep ++ join sep (second :: rest) = _
        simp only [hjoin, List.append_assoc]

end Bytes

namespace Diagnostic

/-! ## Gutters -/

/-- what stands in front of a source line: its number -/
def gutter (n : Nat) : Bytes := Bytes.padLeft 4 (Bytes.ofNat n) ++ text " | "

/-- the byte that marks a column -/
def caretMark : UInt8 := 94

/-- the line below a source line, with a caret for a column -/
def caretLine (col : Nat) : Bytes := text "     | " ++ List.replicate (col - 1) Bytes.space ++ [caretMark]

/-- where the byte in a column of source line `n` stands behind the gutter -/
def columnOffset (n col : Nat) : Nat := (gutter n).length + (col - 1)

theorem length_gutter (n : Nat) : (gutter n).length = max 4 (Bytes.ofNat n).length + 3 := by
  rw [gutter, List.length_append, Bytes.padLeft, List.length_append, List.length_replicate]
  have htext : (text " | ").length = 3 := rfl
  omega

/-- numbers up to 9999 have four digits -/
theorem length_ofNat_le (n : Nat) : (Bytes.ofNat n).length ≤ 4 ↔ n < 10000 := by
  rw [Bytes.ofNat, List.length_map]
  exact Nat.length_toDigits_le_iff (by decide) (by decide)

theorem idxOf_caretLine (col : Nat) : (caretLine col).idxOf caretMark = 7 + (col - 1) := by
  have hblank : caretMark ∉ text "     | " ++ List.replicate (col - 1) Bytes.space := by
    rw [List.mem_append, not_or]
    exact ⟨by decide, fun h => absurd (List.eq_of_mem_replicate h) (by decide)⟩
  rw [caretLine, List.idxOf_append_of_notMem hblank, List.length_append, List.length_replicate, List.idxOf_cons_self]
  rfl

/-- each digit beyond the fourth moves the line to the right, and not the caret -/
theorem columnOffset_eq (n col : Nat) :
    columnOffset n col = (caretLine col).idxOf caretMark + ((Bytes.ofNat n).length - 4) := by
  rw [columnOffset, length_gutter, idxOf_caretLine]
  omega

/-! ## Snippets -/

theorem newline_not_mem_gutter (n : Nat) : Bytes.newline ∉ gutter n := by
  simp only [gutter, Bytes.padLeft, List.mem_append, not_or]
  refine ⟨⟨fun h => absurd (List.eq_of_mem_replicate h) (by decide), fun h => ?_⟩, by decide⟩
  exact absurd (Bytes.isDigit_ofNat h) (by decide)

theorem newline_not_mem_caretLine (col : Nat) : Bytes.newline ∉ caretLine col := by
  simp only [caretLine, List.mem_append, not_or]
  exact ⟨⟨by decide, fun h => absurd (List.eq_of_mem_replicate h) (by decide)⟩, by decide⟩

/-- a snippet has the line, and the caret's line right below it -/
theorem exists_snippet {source : Bytes} (hsource : source ≠ []) {n : Nat} {line : Bytes}
    (hline : (Bytes.lines source)[n - 1]? = some line) (col : Nat) :
    ∃ above below, text "\n" ++ snippet source n col =
      above ++ Bytes.newline :: (gutter n ++ line ++ Bytes.newline :: (caretLine col ++ Bytes.newline :: below)) := by
  obtain ⟨b, rest, rfl⟩ := List.exists_cons_of_ne_nil hsource
  have hnumbered : ∀ k t, numbered k t = gutter k ++ t ++ [Bytes.newline] := fun _ _ => rfl
  have hcaret : caret col = caretLine col ++ [Bytes.newline] := by
    rw [caret, caretLine, List.append_assoc (text "     | " ++ _)]
    rfl
  have hshape : ∀ above below, text "\n" ++ (above ++ [Bytes.newline] ++ numbered n line ++ caret col ++ below) =
      text "\n" ++ above ++ Bytes.newline ::
        (gutter n ++ line ++ Bytes.newline :: (caretLine col ++ Bytes.newline :: below)) := by
    intro above below
    simp only [hnumbered, hcaret, List.append_assoc, List.cons_append, List.nil_append]
  simp only [snippet, hline]
  split
  · exact ⟨_, _, hshape [] _⟩
  · rw [hnumbered (n - 1), ← List.append_assoc (text "\n")]
    exact ⟨_, _, hshape (text "\n" ++ (gutter (n - 1) ++ ((Bytes.lines (b :: rest))[n - 2]?).getD [])) _⟩

/-- a report shows the line of its place, if the source has it -/
theorem exists_report {source : Bytes} (hsource : source ≠ []) {d : Diagnostic} (hplace : 1 ≤ d.pos.line)
    (hcol : 1 ≤ d.pos.col) {line : Bytes} (hline : (Bytes.lines source)[d.pos.line.toNat - 1]? = some line) (name : Bytes) :
    ∃ above below, report name source d = above ++ Bytes.newline :: (gutter d.pos.line.toNat ++ line ++
      Bytes.newline :: (caretLine d.pos.col.toNat ++ Bytes.newline :: below)) := by
  have hlineMax : max 1 d.pos.line.toNat = d.pos.line.toNat := by omega
  have hcolMax : max 1 d.pos.col.toNat = d.pos.col.toNat := by omega
  obtain ⟨above, below, hsnippet⟩ := exists_snippet hsource hline d.pos.col.toNat
  simp only [report, hlineMax, hcolMax, List.append_assoc]
  rw [← List.append_assoc (text "\n"), hsnippet]
  simp only [List.append_assoc, List.cons_append]
  simp only [← List.append_assoc]
  exact ⟨_, _, rfl⟩

end Diagnostic

namespace Failure

open Diagnostic

/-- what the reports of several diagnostics come to: all of them, without the line feeds at the end -/
theorem report_eq {f : Failure} (h : f.all ≠ []) (name source : Bytes) : f.report name source =
    Bytes.trimRight (· == Bytes.newline) (Bytes.join (text "\n") (f.all.map (Diagnostic.report name source))) := by
  unfold report
  split
  · exact absurd ‹_› h
  · rfl

/-- a report of several diagnostics shows the line of each place that the source has -/
theorem exists_lines {f : Failure} {d : Diagnostic} (hd : d ∈ f.all) {source : Bytes} (hsource : source ≠ [])
    (hplace : 1 ≤ d.pos.line) (hcol : 1 ≤ d.pos.col) {line : Bytes}
    (hline : (Bytes.lines source)[d.pos.line.toNat - 1]? = some line) (name : Bytes) :
    ∃ i, (Bytes.lines (f.report name source))[i]? = some (gutter d.pos.line.toNat ++ line) ∧
      (Bytes.lines (f.report name source))[i + 1]? = some (caretLine d.pos.col.toNat) := by
  obtain ⟨above, below, hreport⟩ := exists_report hsource hplace hcol hline name
  obtain ⟨front, behind, hjoin⟩ := Bytes.exists_join (List.mem_map_of_mem hd) (text "\n")
  have hnewline : Bytes.newline ∉ gutter d.pos.line.toNat ++ line := by
    rw [List.mem_append, not_or]
    exact ⟨newline_not_mem_gutter _, Bytes.newline_not_mem_lines (List.mem_of_getElem? hline)⟩
  -- the caret is the last byte that is surely kept
  have htrim : f.report name source = (front ++ above) ++ Bytes.newline :: (gutter d.pos.line.toNat ++ line ++
      Bytes.newline :: (caretLine d.pos.col.toNat ++
        Bytes.trimRight (· == Bytes.newline) (Bytes.newline :: (below ++ behind)))) := by
    have hcut := @Bytes.trimRight_append (· == Bytes.newline) caretMark rfl
      (front ++ above ++ Bytes.newline :: (gutter d.pos.line.toNat ++ line ++
        Bytes.newline :: (text "     | " ++ List.replicate (d.pos.col.toNat - 1) Bytes.space)))
      (Bytes.newline :: (below ++ behind))
    rw [report_eq (List.ne_nil_of_mem hd), hjoin, hreport]
    simp only [caretLine, List.append_assoc, List.cons_append, List.nil_append] at hcut ⊢
    exact hcut
  rw [htrim]
  exact Bytes.lines_between hnewline (newline_not_mem_caretLine _) _ (Bytes.trimRight_newline _)

/-- **Carets and columns.** For each diagnostic whose place is in the source, a report shows the source line with its
number, and right below it a line with a caret. The caret stands below the byte in the diagnostic's column exactly if the
number of the line has at most four digits; otherwise it stands as many bytes to the left of it as there are more. -/
theorem report_marks (f : Failure) (name : Bytes) {source : Bytes} (hsource : source ≠ []) {d : Diagnostic}
    (hd : d ∈ f.all) (hline : d.pos.IsOnLineOf source) (hcol : 1 ≤ d.pos.col) :
    ∃ (n col : Nat) (row : Bytes) (i : Nat), d.pos = ⟨n, col⟩ ∧ (Bytes.lines source)[n - 1]? = some row ∧
      (Bytes.lines (f.report name source))[i]? = some (gutter n ++ row) ∧
      (Bytes.lines (f.report name source))[i + 1]? = some (caretLine col) ∧
      (gutter n ++ row)[columnOffset n col]? = row[col - 1]? ∧
      columnOffset n col = (caretLine col).idxOf caretMark + ((Bytes.ofNat n).length - 4) ∧
      ((caretLine col).idxOf caretMark = columnOffset n col ↔ n < 10000) := by
  obtain ⟨hlow, hhigh⟩ := hline
  have hindex : d.pos.line.toNat - 1 < (Bytes.lines source).length := by omega
  have hfound := List.getElem?_eq_getElem hindex
  obtain ⟨i, hshown, hmarked⟩ := exists_lines hd hsource hlow hcol hfound name
  have hpos : d.pos = ⟨d.pos.line.toNat, d.pos.col.toNat⟩ := by
    rw [Int.toNat_of_nonneg (by omega), Int.toNat_of_nonneg (by omega)]
  have hoffset := columnOffset_eq d.pos.line.toNat d.pos.col.toNat
  refine ⟨_, _, _, i, hpos, hfound, hshown, hmarked, ?_, hoffset, ?_⟩
  · rw [columnOffset, List.getElem?_append_right (Nat.le_add_right _ _), Nat.add_sub_cancel_left]
  · rw [← length_ofNat_le, hoffset]
    omega

/-- a source with ten thousand lines, of which only the last is not empty -/
def longSource : Bytes := List.replicate 9999 Bytes.newline ++ text "y;"

theorem lines_longSource : Bytes.lines longSource = List.replicate 9999 [] ++ [text "y;"] := by
  have hlines : ∀ k, Bytes.lines (List.replicate k Bytes.newline ++ text "y;") = List.replicate k [] ++ [text "y;"] := by
    intro k
    induction k with
    | zero => rfl
    | succ k ih =>
      rw [List.replicate_succ, List.cons_append, Bytes.lines, if_pos rfl, ih]
      rfl
  exact hlines 9999

/-- in the last line of a long source the caret is one byte off: with five digits the line has moved to the right -/
theorem report_marks_longSource :
    let d : Diagnostic := ⟨.undefinedVariable (text "y"), ⟨10000, 1⟩, [], false⟩
    let f := Failure.diagnostics [d]
    longSource ≠ [] ∧ d ∈ f.all ∧ d.pos.IsOnLineOf longSource ∧ 1 ≤ d.pos.col ∧
    (∃ i, (Bytes.lines (f.report [] longSource))[i]? = some (text "10000 | y;") ∧
      (Bytes.lines (f.report [] longSource))[i + 1]? = some (text "     | ^")) ∧
    columnOffset 10000 1 = 8 ∧ (caretLine 1).idxOf caretMark = 7 := by
  intro d f
  have hsource : longSource ≠ [] := List.append_ne_nil_of_right_ne_nil _ (by decide)
  have hline : d.pos.IsOnLineOf longSource := by
    refine ⟨by decide, ?_⟩
    rw [lines_longSource, List.length_append, List.length_replicate]
    decide
  obtain ⟨n, col, line, i, hpos, hfound, hshown, hmarked, -, hoffset, -⟩ :=
    report_marks f [] hsource (List.mem_singleton_self d) hline (by decide)
  obtain ⟨rfl, rfl⟩ : n = 10000 ∧ col = 1 := by
    have hn := congrArg Pos.line hpos
    have hcol := congrArg Pos.col hpos
    dsimp only [d] at hn hcol
    omega
  have hindex : 10000 - 1 = (List.replicate 9999 ([] : Bytes)).length := List.length_replicate.symm
  rw [lines_longSource, hindex, List.getElem?_concat_length] at hfound
  obtain rfl := Option.some.inj hfound
  have hcaret : (caretLine 1).idxOf caretMark = 7 := idxOf_caretLine 1
  exact ⟨hsource, List.mem_singleton_self d, hline, by decide, ⟨i, hshown, hmarked⟩, hoffset, hcaret⟩

end Failure

end Ouroboros
