/-
Text on a further line.

A line feed ends every token and comment, and it cannot stand in a string. So when a text that leaves no string open is
continued on a new line, its tokens and faults stay as they are and those of the new line follow (`scanFrom_line`); and a
fault stays a fault whatever follows, also one that is due to the end of the text: an open string is then broken by the
line end, and a backslash at the end of the text becomes an escape that means nothing (`errors_line_ne_nil`).
-/
import Ouroboros.Proofs.Scanning.Pieces

namespace Ouroboros

namespace Token

variable {t : Bytes}

theorem takeWhile_line {f : UInt8 → Bool} (hf : f Bytes.newline = false) (s : Bytes) :
    (s ++ Bytes.newline :: t).takeWhile f = s.takeWhile f := by
  induction s with
  | nil => simp [hf]
  | cons b s ih =>
    rw [List.cons_append, List.takeWhile_cons, List.takeWhile_cons, ih]

theorem dropWhile_line {f : UInt8 → Bool} (hf : f Bytes.newline = false) (s : Bytes) :
    (s ++ Bytes.newline :: t).dropWhile f = s.dropWhile f ++ Bytes.newline :: t := by
  induction s with
  | nil => simp [hf]
  | cons b s ih =>
    rw [List.cons_append, List.dropWhile_cons, List.dropWhile_cons, ih]
    split <;> rfl

/-- blanks up to the end of a text go on on the next line; a comment ends there -/
theorem skipBlanks_line (comment : Bool) (p : Pos) (s : Bytes) :
    skipBlanks comment p (s ++ Bytes.newline :: t) = match skipBlanks comment p s with
      | (q, []) => skipBlanks false q (Bytes.newline :: t)
      | (q, b :: rest) => (q, b :: rest ++ Bytes.newline :: t) := by
  fun_induction skipBlanks comment p s with
  | case1 comment p =>
    cases comment <;> rfl
  | case2 p b rest ih =>
    rw [List.cons_append, skipBlanks, ih]
  | case3 p b rest hb ih =>
    rw [List.cons_append, skipBlanks, if_pos hb, ih]
  | case4 p b rest hb hslash ih =>
    rw [List.cons_append, skipBlanks, if_neg hb, if_pos, ih]
    refine ⟨hslash.1, ?_⟩
    rw [List.head?_append, hslash.2]
    rfl
  | case5 p b rest hb hslash =>
    rw [List.cons_append, skipBlanks, if_neg hb, if_neg]
    · rfl
    · rintro ⟨hb', hhead⟩
      cases rest with
      | nil => cases hhead
      | cons c rest => exact hslash ⟨hb', hhead⟩

theorem fraction_line (s : Bytes) :
    fraction (s ++ Bytes.newline :: t) = ((fraction s).1, (fraction s).2 ++ Bytes.newline :: t) := by
  match s with
  | [] =>
    cases t with
    | nil => rfl
    | cons d t => rfl
  | [b] =>
    have hn : Bytes.isDigit Bytes.newline = false := by decide
    simp [fraction, hn]
  | b :: d :: rest =>
    simp only [List.cons_append, fraction]
    rw [takeWhile_line (by decide), dropWhile_line (by decide)]
    split <;> rfl

/-- a string that ends is read as it is, whatever follows -/
theorem stringBody_append {p : Pos} {s : Bytes} (h : (stringBody p s).ending ≠ .text) (u : Bytes) :
    stringBody p (s ++ u) = { stringBody p s with rest := (stringBody p s).rest ++ u } := by
  fun_induction stringBody p s with
  | case1 | case4 => exact absurd rfl h
  | case2 p rest => rw [List.cons_append, stringBody_quote]
  | case3 p rest => rw [List.cons_append, stringBody_newline]
  | case5 p e rest c hc _ _ body ih => rw [List.cons_append, List.cons_append, stringBody_escape p _ hc, ih h]
  | case6 p e rest hc _ _ body ih => rw [List.cons_append, List.cons_append, stringBody_badEscape p _ hc, ih h]
  | case7 p b rest hq hn hs body ih => rw [List.cons_append, stringBody_byte p _ hq hn hs, ih h]

/-- a string that a text leaves open is faulty on the next line -/
theorem stringBody_line {p : Pos} {s : Bytes} (h : (stringBody p s).ending ≠ .closed) :
    (stringBody p (s ++ Bytes.newline :: t)).ending ≠ .closed ∨
      (stringBody p (s ++ Bytes.newline :: t)).faults ≠ [] := by
  fun_induction stringBody p s with
  | case1 p =>
    rw [List.nil_append, stringBody_newline]
    exact Or.inl (by simp)
  | case2 p rest => exact absurd rfl h
  | case3 p rest =>
    rw [List.cons_append, stringBody_newline]
    exact Or.inl (by simp)
  | case4 p =>
    rw [List.cons_append, List.nil_append, stringBody_badEscape p _ (by decide)]
    exact Or.inr (by simp)
  | case5 p e rest c hc _ _ body ih =>
    rw [List.cons_append, List.cons_append, stringBody_escape p _ hc]
    exact ih h
  | case6 p e rest hc _ _ body ih =>
    rw [List.cons_append, List.cons_append, stringBody_badEscape p _ hc]
    exact Or.inr (by simp)
  | case7 p b rest hq hn hs body ih =>
    rw [List.cons_append, stringBody_byte p _ hq hn hs]
    exact ih h

theorem stringPiece_faults_ne_nil {p : Pos} {b : UInt8} {rest : Bytes} :
    (stringPiece p b rest).faults ≠ [] ↔
      (stringBody (p.next b) rest).ending ≠ .closed ∨ (stringBody (p.next b) rest).faults ≠ [] := by
  unfold stringPiece
  dsimp only
  split <;> rename_i h <;> simp [h]

theorem continuation?_ne {b : UInt8} {n : Nat} (h : Text.continuation? b = some n) : b ≠ Bytes.newline := by
  rintro rfl
  cases h

/-- a character takes at least its first byte, and its other bytes are no line feeds -/
theorem size_first? {b : UInt8} {rest : Bytes} {c : Char} {n : Nat} (h : Text.first? (b :: rest) = some (c, n)) :
    0 < n ∧ n - 1 ≤ rest.length ∧ Bytes.newline ∉ rest.take (n - 1) := by
  unfold Text.first? at h
  simp only [Option.bind_eq_bind, Option.pure_def] at h
  split_ifs at h
  · cases h
    simp
  · split at h
    · simp only [Option.bind_eq_some_iff, Option.some.injEq, Prod.mk.injEq] at h
      obtain ⟨low, hlow, c, -, -, rfl⟩ := h
      simpa using (continuation?_ne hlow).symm
    · cases h
  · split at h
    · simp only [Option.bind_eq_some_iff, Option.some.injEq, Prod.mk.injEq] at h
      obtain ⟨mid, hmid, low, hlow, c, -, -, rfl⟩ := h
      simpa using ⟨(continuation?_ne hmid).symm, (continuation?_ne hlow).symm⟩
    · cases h
  · split at h
    · simp only [Option.bind_eq_some_iff, Option.some.injEq, Prod.mk.injEq] at h
      obtain ⟨high, hhigh, mid, hmid, low, hlow, c, -, -, rfl⟩ := h
      simpa using ⟨(continuation?_ne hhigh).symm, (continuation?_ne hmid).symm, (continuation?_ne hlow).symm⟩
    · cases h

/-- a character that the end of a text cuts short is none in front of a line feed either -/
theorem first?_line (b : UInt8) (rest : Bytes) :
    Text.first? (b :: (rest ++ Bytes.newline :: t)) = Text.first? (b :: rest) := by
  have hnone : Text.continuation? Bytes.newline = none := by decide
  simp only [Text.first?]
  split_ifs
  · rfl
  · rfl
  · cases rest with
    | nil => simp [hnone]
    | cons => rfl
  · match rest with
    | [] => cases t <;> simp [hnone]
    | [_] => simp [hnone]
    | _ :: _ :: _ => rfl
  · match rest with
    | [] => rcases t with _ | ⟨_, _ | _⟩ <;> simp [hnone]
    | [_] => cases t <;> simp [hnone]
    | [_, _] => simp [hnone]
    | _ :: _ :: _ :: _ => rfl
  · rfl

theorem strayPiece_line (p : Pos) (b : UInt8) (rest : Bytes) : strayPiece p b (rest ++ Bytes.newline :: t) =
    { strayPiece p b rest with rest := (strayPiece p b rest).rest ++ Bytes.newline :: t } := by
  have hle : ((Text.first? (b :: rest)).getD (Text.replacement, 1)).2 - 1 ≤ rest.length := by
    cases h : Text.first? (b :: rest) with
    | none => exact Nat.zero_le _
    | some x => exact (size_first? h).2.1
  simp only [strayPiece, first?_line, List.drop_append_of_le_length hle]

theorem longSign?_line (b : UInt8) (rest : Bytes) : longSign? b (rest ++ Bytes.newline :: t) = longSign? b rest := by
  cases rest with
  | nil => simp [longSign?, show Bytes.newline ≠ 62 by decide, show Bytes.newline ≠ Bytes.point by decide]
  | cons c rest => rfl

/-- whether one of the faults is a string that the end of the text leaves open -/
def LeavesOpen (faults : List Diagnostic) : Prop := ∃ e ∈ faults, e.fault = .openString

instance (faults : List Diagnostic) : Decidable (LeavesOpen faults) :=
  inferInstanceAs (Decidable (∃ e ∈ faults, e.fault = .openString))

theorem stringPiece_leavesOpen {p : Pos} {b : UInt8} {rest : Bytes} (h : (stringBody (p.next b) rest).ending = .text) :
    LeavesOpen (stringPiece p b rest).faults := by
  simp only [stringPiece, h]
  exact ⟨⟨.openString, p, [], true⟩, by simp, rfl⟩

/-- a piece that is no open string is read as it is on a line that ends behind it -/
theorem nextPiece_line (p : Pos) (b : UInt8) (rest : Bytes) (h : ¬LeavesOpen (nextPiece p b rest).faults) :
    nextPiece p b (rest ++ Bytes.newline :: t) =
      { nextPiece p b rest with rest := (nextPiece p b rest).rest ++ Bytes.newline :: t } := by
  unfold nextPiece at h ⊢
  split
  · simp only [wordPiece, takeWhile_line (show Bytes.isNameByte Bytes.newline = false by decide),
      dropWhile_line (show Bytes.isNameByte Bytes.newline = false by decide)]
    rfl
  split
  · simp only [numeralPiece, takeWhile_line (show Bytes.isDigit Bytes.newline = false by decide),
      dropWhile_line (show Bytes.isDigit Bytes.newline = false by decide), fraction_line]
    rfl
  split
  · rename_i hletter hdigit hquote
    rw [if_neg hletter, if_neg hdigit, if_pos hquote] at h
    have hends : (stringBody (p.next b) rest).ending ≠ .text := fun htext => h (stringPiece_leavesOpen htext)
    simp only [stringPiece, stringBody_append hends]
    cases (stringBody (p.next b) rest).ending <;> rfl
  · simp only [signPiece, longSign?_line]
    cases hlong : longSign? b rest with
    | some k =>
      cases rest with
      | nil => simp [longSign?] at hlong
      | cons c rest => rfl
    | none =>
      dsimp only
      cases TokenKind.ofSign? b with
      | some k => rfl
      | none => exact strayPiece_line p b rest

/-- an open string stays faulty on the next line -/
theorem nextPiece_faults_line (p : Pos) (b : UInt8) (rest : Bytes) (h : LeavesOpen (nextPiece p b rest).faults) :
    (nextPiece p b (rest ++ Bytes.newline :: t)).faults ≠ [] := by
  cases starts b rest with
  | token _ _ _ _ hpiece =>
    rw [hpiece] at h
    simp [LeavesOpen, piece] at h
  | string hquote hpiece =>
    rw [hpiece] at h
    have hline : nextPiece p b (rest ++ Bytes.newline :: t) = stringPiece p b (rest ++ Bytes.newline :: t) := by
      rw [hquote]
      rfl
    rw [hline, stringPiece_faults_ne_nil]
    by_cases hclosed : (stringBody (p.next b) rest).ending = .closed
    · rw [stringBody_append (by simp [hclosed])]
      obtain ⟨e, he, -⟩ := h
      simp only [stringPiece, hclosed] at he
      exact Or.inr (List.ne_nil_of_mem he)
    · exact stringBody_line hclosed
  | stray _ hpiece =>
    rw [hpiece] at h
    simp [LeavesOpen, strayPiece] at h

/-- **A further line.** When a text leaves no string open, its tokens and faults stay as they are, and those of the next
line follow. -/
theorem scanFrom_line (p : Pos) (s : Bytes) (h : ¬LeavesOpen (scanFrom p s).errors) :
    ∃ ts q, (scanFrom p s).tokens = ts ++ [.finish q] ∧ scanFrom p (s ++ Bytes.newline :: t) =
      ⟨ts ++ (scanFrom q (Bytes.newline :: t)).tokens,
        (scanFrom p s).errors ++ (scanFrom q (Bytes.newline :: t)).errors⟩ := by
  induction p, s using scan_induction with
  | hend p s q hblank =>
    refine ⟨[], q, by rw [scanFrom_end hblank]; rfl, ?_⟩
    rw [scanFrom_end hblank, scanFrom_congr (q := q) (u := Bytes.newline :: t)]
    · rfl
    · rw [skipBlanks_line, hblank]
  | hnext p s q b rest hblank ih =>
    rw [scanFrom_next hblank] at h
    have hfaults : ¬LeavesOpen (nextPiece q b rest).faults := fun ⟨e, he, hopen⟩ =>
      h ⟨e, List.mem_append_left _ he, hopen⟩
    have herrors : ¬LeavesOpen (scanFrom (nextPiece q b rest).pos (nextPiece q b rest).rest).errors :=
      fun ⟨e, he, hopen⟩ => h ⟨e, List.mem_append_right _ he, hopen⟩
    obtain ⟨ts, q', htokens, hline⟩ := ih herrors
    have hblank' : skipBlanks false p (s ++ Bytes.newline :: t) = (q, b :: (rest ++ Bytes.newline :: t)) := by
      rw [skipBlanks_line, hblank]
      rfl
    refine ⟨(nextPiece q b rest).token?.toList ++ ts, q', ?_, ?_⟩
    · rw [scanFrom_next hblank, htokens, List.append_assoc]
    · rw [scanFrom_next hblank', scanFrom_next hblank, nextPiece_line q b rest hfaults]
      dsimp only
      rw [hline, List.append_assoc, List.append_assoc]

/-- a text with faults has faults on any further line -/
theorem errors_line_ne_nil (p : Pos) (s : Bytes) (h : (scanFrom p s).errors ≠ []) :
    (scanFrom p (s ++ Bytes.newline :: t)).errors ≠ [] := by
  induction p, s using scan_induction with
  | hend p s q hblank =>
    rw [scanFrom_end hblank] at h
    exact absurd rfl h
  | hnext p s q b rest hblank ih =>
    have hblank' : skipBlanks false p (s ++ Bytes.newline :: t) = (q, b :: (rest ++ Bytes.newline :: t)) := by
      rw [skipBlanks_line, hblank]
      rfl
    rw [scanFrom_next hblank']
    rw [scanFrom_next hblank] at h
    intro hnil
    obtain ⟨hfaults, herrors⟩ := List.append_eq_nil_iff.1 hnil
    by_cases hopen : LeavesOpen (nextPiece q b rest).faults
    · exact nextPiece_faults_line q b rest hopen hfaults
    · rw [nextPiece_line q b rest hopen] at hfaults herrors
      refine ih (fun he => h ?_) herrors
      dsimp only at hfaults ⊢
      rw [hfaults, he]
      rfl

end Token

end Ouroboros
