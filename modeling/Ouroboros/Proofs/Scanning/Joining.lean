/-
Two texts on lines of their own.

What is read on later lines does not depend on how many lines there are in front, up to the lines that places and messages
name (`scanFrom_down`). So the reading of two texts with a line end between them is the reading of the first without its
end of input, followed by the reading of the second further down (`scan_join`), unless the first leaves a string open.
-/
import Ouroboros.Proofs.Scanning.Offsets

namespace Ouroboros

/-! ## Further down -/

/-- the place some lines further down -/
def Pos.down (n : Nat) (p : Pos) : Pos := ⟨p.line + n, p.col⟩

/-- the fault when the text starts some lines further down: two messages name their line -/
def Fault.down (n : Nat) : Fault → Fault
  | .strayCharacter c line => .strayCharacter c (line + n)
  | .badEscape b line => .badEscape b (line + n)
  | fault => fault

/-- the diagnostic some lines further down -/
def Diagnostic.down (n : Nat) (d : Diagnostic) : Diagnostic := { d with fault := d.fault.down n, pos := d.pos.down n }

namespace Token

/-- the token some lines further down -/
def down (n : Nat) (t : Token) : Token := { t with pos := t.pos.down n }

/-- the string some lines further down -/
def StringBody.down (n : Nat) (body : StringBody) : StringBody :=
  { body with faults := body.faults.map (Diagnostic.down n), pos := body.pos.down n }

/-- the piece some lines further down -/
def Piece.down (n : Nat) (piece : Piece) : Piece :=
  { piece with token? := piece.token?.map (Token.down n), faults := piece.faults.map (Diagnostic.down n),
               pos := piece.pos.down n }

section Down

variable (n : Nat) (p : Pos)

theorem next_down (b : UInt8) : (p.down n).next b = (p.next b).down n := by
  unfold Pos.next Pos.down
  split
  · refine congrArg₂ Pos.mk ?_ rfl
    dsimp only
    omega
  · rfl

theorem after_down (t : Bytes) : (p.down n).after t = (p.after t).down n := by
  induction t generalizing p with
  | nil => rfl
  | cons b t ih => exact (congrArg (Pos.after · t) (next_down n p b)).trans (ih (p.next b))

theorem skipBlanks_down (comment : Bool) (t : Bytes) : skipBlanks comment (p.down n) t =
    ((skipBlanks comment p t).1.down n, (skipBlanks comment p t).2) := by
  fun_induction skipBlanks comment p t with
  | case1 => rfl
  | case2 p b rest ih => rw [skipBlanks, next_down, ih]
  | case3 p b rest hb ih => rw [skipBlanks, if_pos hb, next_down, ih]
  | case4 p b rest hb hslash ih => rw [skipBlanks, if_neg hb, if_pos hslash, next_down, ih]
  | case5 p b rest hb hslash => rw [skipBlanks, if_neg hb, if_neg hslash]

theorem stringBody_down (s : Bytes) : stringBody (p.down n) s = (stringBody p s).down n := by
  fun_induction stringBody p s with
  | case1 => rfl
  | case2 p rest =>
    rw [stringBody_quote, next_down]
    rfl
  | case3 p rest =>
    rw [stringBody_newline]
    rfl
  | case4 p =>
    rw [stringBody.eq_def]
    simp [StringBody.down, next_down, show Bytes.backslash ≠ Bytes.quote by decide,
      show Bytes.backslash ≠ Bytes.newline by decide]
  | case5 p e rest c hc _ _ body ih =>
    rw [stringBody_escape _ _ hc, next_down, next_down, ih]
    rfl
  | case6 p e rest hc _ _ body ih =>
    rw [stringBody_badEscape _ _ hc, next_down, next_down, ih]
    rfl
  | case7 p b rest hq hn hs body ih =>
    rw [stringBody_byte _ _ hq hn hs, next_down, ih]
    rfl

theorem piece_down (kind : TokenKind) (lexeme : Bytes) (literal : Literal) (rest : Bytes) :
    piece kind lexeme literal (p.down n) rest = (piece kind lexeme literal p rest).down n := by
  simp only [piece, after_down]
  rfl

theorem stringPiece_down (b : UInt8) (rest : Bytes) :
    stringPiece (p.down n) b rest = (stringPiece p b rest).down n := by
  simp only [stringPiece, next_down, stringBody_down, StringBody.down]
  split <;> simp [Piece.down, Token.down, Diagnostic.down, Fault.down]

theorem strayPiece_down (b : UInt8) (rest : Bytes) : strayPiece (p.down n) b rest = (strayPiece p b rest).down n := rfl

theorem nextPiece_down (b : UInt8) (rest : Bytes) : nextPiece (p.down n) b rest = (nextPiece p b rest).down n := by
  cases starts b rest with
  | token _ _ _ _ hpiece =>
    rw [hpiece, hpiece]
    exact piece_down n p _ _ _ _
  | string _ hpiece =>
    rw [hpiece, hpiece]
    exact stringPiece_down n p b rest
  | stray _ hpiece =>
    rw [hpiece, hpiece]
    exact strayPiece_down n p b rest

/-- **Reading further down.** Reading a text some lines further down moves the lines of its tokens and faults, and changes
nothing else. -/
theorem scanFrom_down (t : Bytes) : scanFrom (p.down n) t =
    ⟨(scanFrom p t).tokens.map (Token.down n), (scanFrom p t).errors.map (Diagnostic.down n)⟩ := by
  induction p, t using scan_induction with
  | hend p t q hblank =>
    have hskip : skipBlanks false (p.down n) t = (q.down n, []) := by rw [skipBlanks_down, hblank]
    rw [scanFrom_end hblank, scanFrom_end hskip]
    rfl
  | hnext p t q b rest hblank ih =>
    have hskip : skipBlanks false (p.down n) t = (q.down n, b :: rest) := by rw [skipBlanks_down, hblank]
    rw [scanFrom_next hblank, scanFrom_next hskip, nextPiece_down]
    simp only [Piece.down, ih, List.map_append]
    cases (nextPiece q b rest).token? <;> rfl

end Down

/-! ## Two texts -/

/-- **Line by line.** When a text leaves no string open, reading it and another text behind a line end gives its own tokens
without their end of input and the tokens of the other text, and its own faults and those of the other text. All lines of
the other text are counted on from the lines in front, also those that messages name; nothing else is changed. -/
theorem scan_join (a b : Bytes) (h : ¬LeavesOpen (scan a).errors) : ∃ ts q, (scan a).tokens = ts ++ [.finish q] ∧
    scan (a ++ Bytes.newline :: b) =
      ⟨ts ++ (scan b).tokens.map (Token.down (1 + a.count Bytes.newline)),
        (scan a).errors ++ (scan b).errors.map (Diagnostic.down (1 + a.count Bytes.newline))⟩ := by
  obtain ⟨ts, q, htokens, hline⟩ := scanFrom_line (t := b) .start a h
  have hplace : q.next Bytes.newline = Pos.start.down (1 + a.count Bytes.newline) := by
    have hq := line_of_finish htokens
    rw [Pos.next, if_pos rfl]
    simp only [Pos.down, Pos.start, hq]
    push_cast
    refine congrArg₂ Pos.mk ?_ rfl
    omega
  have hnext : scanFrom q (Bytes.newline :: b) =
      scanFrom (Pos.start.down (1 + a.count Bytes.newline)) b := by
    rw [← hplace]
    exact scanFrom_congr rfl
  refine ⟨ts, q, htokens, ?_⟩
  rw [hnext, scanFrom_down] at hline
  exact hline

/-- a stray character and a string broken by the line in front, an escape that means nothing behind -/
theorem scan_join_broken : ∃ ts q, (scan (Ouroboros.text "é \"x\ny")).tokens = ts ++ [.finish q] ∧
    scan (Ouroboros.text "é \"x\ny" ++ Bytes.newline :: Ouroboros.text "\"\\q\" .") =
      ⟨ts ++ (scan (Ouroboros.text "\"\\q\" .")).tokens.map (Token.down 2),
        (scan (Ouroboros.text "é \"x\ny")).errors ++
          (scan (Ouroboros.text "\"\\q\" .")).errors.map (Diagnostic.down 2)⟩ :=
  scan_join (Ouroboros.text "é \"x\ny") (Ouroboros.text "\"\\q\" .") (by decide +kernel)

end Token

end Ouroboros
