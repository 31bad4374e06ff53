/-
Places of trees.

Every token of a text has a place in it, with a line and a column from 1 on (`Token.placed_scan`). Every expression and
statement of a program stands at the place of a token that it was read from, so what holds of the places of all tokens holds
of those of the program (`Program.liesIn_ofSource`).
-/
import Ouroboros.Proofs.Execution.Judgments
import Ouroboros.Proofs.Parsing.Exact

namespace Ouroboros

/-! ## Tokens -/

/-- a place in a text: lines and columns are counted from 1 -/
def Pos.IsPlaced (p : Pos) : Prop := 1 ≤ p.line ∧ 1 ≤ p.col

namespace Pos.IsPlaced

variable {p : Pos}

theorem next (h : p.IsPlaced) (b : UInt8) : (p.next b).IsPlaced := by
  obtain ⟨hline, hcol⟩ := h
  unfold Pos.next
  split
  · exact ⟨by dsimp only; omega, Int.le_refl 1⟩
  · exact ⟨hline, by dsimp only; omega⟩

theorem after (h : p.IsPlaced) (t : Bytes) : (p.after t).IsPlaced := by
  induction t generalizing p with
  | nil => exact h
  | cons b t ih => exact ih (h.next b)

theorem line_ne (h : p.IsPlaced) : p.line ≠ 0 := by
  have hline := h.1
  omega

end Pos.IsPlaced

namespace Token

variable {p : Pos}

theorem placed_skipBlanks (h : p.IsPlaced) (comment : Bool) (t : Bytes) : (skipBlanks comment p t).1.IsPlaced := by
  fun_induction skipBlanks comment p t with
  | case1 _ p | case5 p _ _ _ _ => exact h
  | case2 p b _ ih | case3 p b _ _ ih | case4 p b _ _ _ ih => exact ih (h.next b)

theorem placed_stringBody (h : p.IsPlaced) (t : Bytes) : (stringBody p t).pos.IsPlaced := by
  fun_induction stringBody p t with
  | case1 p | case3 p rest => exact h
  | case2 p rest => exact h.next _
  | case4 p => exact h.next _
  | case5 p e rest c _ _ _ body ih | case6 p e rest _ _ _ body ih => exact ih ((h.next _).next e)
  | case7 p b rest _ _ _ body ih => exact ih (h.next b)

/-- the piece's token, if it has one, has a place, and behind it reading goes on at a place -/
def Piece.Placed (x : Piece) : Prop := x.pos.IsPlaced ∧ ∀ t, x.token? = some t → t.pos.IsPlaced

theorem placed_piece (h : p.IsPlaced) (kind : TokenKind) (lexeme : Bytes) (literal : Literal) (rest : Bytes) :
    (piece kind lexeme literal p rest).Placed := by
  refine ⟨h.after lexeme, ?_⟩
  rintro t ⟨⟩
  exact h

theorem placed_stringPiece (h : p.IsPlaced) (b : UInt8) (rest : Bytes) : (stringPiece p b rest).Placed := by
  have hbody := placed_stringBody (h.next b) rest
  unfold stringPiece
  dsimp only
  split
  · refine ⟨hbody, ?_⟩
    rintro t ⟨⟩
    exact h
  · exact ⟨hbody, fun t ht => by cases ht⟩
  · exact ⟨hbody, fun t ht => by cases ht⟩

theorem placed_nextPiece (h : p.IsPlaced) (b : UInt8) (rest : Bytes) : (nextPiece p b rest).Placed := by
  cases starts b rest with
  | token _ _ _ _ hpiece =>
    rw [hpiece]
    exact placed_piece h ..
  | string _ hpiece =>
    rw [hpiece]
    exact placed_stringPiece h b rest
  | stray _ hpiece =>
    rw [hpiece]
    refine ⟨⟨h.1, ?_⟩, fun t ht => by cases ht⟩
    have hcol := h.2
    simp only [strayPiece]
    omega

theorem placed_scanFrom (h : p.IsPlaced) (s : Bytes) : ∀ t ∈ (scanFrom p s).tokens, t.pos.IsPlaced := by
  induction p, s using scan_induction with
  | hend p s q hblank =>
    have hq := placed_skipBlanks h false s
    rw [hblank] at hq
    rw [scanFrom_end hblank, List.forall_mem_singleton]
    exact hq
  | hnext p s q b rest hblank ih =>
    have hq := placed_skipBlanks h false s
    rw [hblank] at hq
    obtain ⟨hpos, htoken⟩ := placed_nextPiece hq b rest
    rw [scanFrom_next hblank, List.forall_mem_append]
    exact ⟨fun t ht => htoken t (Option.mem_toList.mp ht), ih hpos⟩

/-- **Tokens have places.** -/
theorem placed_scan (s : Bytes) : ∀ t ∈ (scan s).tokens, t.pos.IsPlaced := placed_scanFrom ⟨by decide, by decide⟩ s

theorem at_placeOf {P : Pos → Prop} {ts : List Token} (hts : ∀ t ∈ ts, P t.pos) (hne : ts ≠ []) : P (placeOf ts) := by
  cases ts with
  | nil => exact absurd rfl hne
  | cons t ts => exact hts t List.mem_cons_self

end Token

/-! ## Trees -/

namespace Expr

/-- `P` holds of the places of the expression and of all expressions in it -/
def LiesIn (P : Pos → Prop) (e : Expr) : Prop := e.Throughout fun e => P e.pos

theorem LiesIn.of_parts {P : Pos → Prop} {e : Expr} (h : P e.pos) (hparts : ∀ part ∈ e.parts, part.LiesIn P) :
    e.LiesIn P := .intro h hparts

end Expr

namespace Stmt

/-- `P` holds of the places of the statement and of all statements and expressions in it -/
def LiesIn (P : Pos → Prop) (s : Stmt) : Prop := s.Throughout (fun e => P e.pos) fun s => P s.pos

theorem LiesIn.of_parts {P : Pos → Prop} {s : Stmt} (h : P s.pos) (hexprs : ∀ x ∈ s.exprs, x.LiesIn P)
    (hparts : ∀ part ∈ s.parts, part.LiesIn P) : s.LiesIn P := .intro h hexprs hparts
end Stmt

namespace Grammar

open Token (placeOf)

variable {P : Pos → Prop}

/-- `P` holds of the places of the trees of a phrase -/
def Phrase.LiesIn (P : Pos → Prop) : (s : Phrase) → s.Tree → Prop
  | .expr _, (e : Expr) => e.LiesIn P
  | .items, (es : List Expr) | .args, (es : List Expr) => ∀ e ∈ es, e.LiesIn P

/-- an expression lies where the tokens are that it is read from -/
theorem DerivesExpr.liesIn {s : Phrase} {ts : List Token} {x : s.Tree} (h : DerivesExpr s ts x)
    (hts : ∀ t ∈ ts, P t.pos) : s.LiesIn P x := by
  induction h with
  | tighter _ _ ih => exact ih hts
  | binary _ _ _ _ iha ihb | range _ _ _ iha ihb =>
    rw [List.forall_mem_append, List.forall_mem_cons] at hts
    refine .of_parts hts.2.1 ?_
    simp only [Expr.parts, List.forall_mem_cons]
    exact ⟨iha hts.1, ihb hts.2.2, List.forall_mem_nil _⟩
  | await _ _ ih =>
    rw [List.forall_mem_cons] at hts
    exact .of_parts hts.1 (List.forall_mem_singleton.mpr (ih hts.2))
  | call _ _ _ _ ihf ihes =>
    rw [List.forall_mem_append, List.forall_mem_cons, List.forall_mem_append] at hts
    exact .of_parts hts.2.1 (List.forall_mem_cons.mpr ⟨ihf hts.1, ihes hts.2.2.1⟩)
  | number | string | ident => exact .of_parts (hts _ List.mem_cons_self) (List.forall_mem_nil _)
  | group _ _ _ ih =>
    rw [List.forall_mem_cons, List.forall_mem_append] at hts
    exact .of_parts hts.1 (List.forall_mem_singleton.mpr (ih hts.2.1))
  | one _ ih => exact List.forall_mem_singleton.mpr (ih hts)
  | more _ _ _ ih ihes =>
    rw [List.forall_mem_append, List.forall_mem_cons] at hts
    exact List.forall_mem_cons.mpr ⟨ih hts.1, ihes hts.2.2⟩
  | noArgs => exact List.forall_mem_nil _
  | args _ ih => exact ih hts

/-- `P` holds of the places of the trees of a clause -/
def Clause.LiesIn (P : Pos → Prop) : (s : Clause) → s.Tree → Prop
  | .stmt, (s : Stmt) => s.LiesIn P
  | .stmts, (ss : List Stmt) => ∀ s ∈ ss, s.LiesIn P
  | .block, (b : Pos × List Stmt) => P b.1 ∧ ∀ s ∈ b.2, s.LiesIn P
  | .otherwise, (o : Option Stmt) => ∀ s ∈ o.toList, s.LiesIn P

/-- a statement lies where the tokens are that it is read from -/
theorem DerivesStmt.liesIn {s : Clause} {ts : List Token} {x : s.Tree} (h : DerivesStmt s ts x)
    (hts : ∀ t ∈ ts, P t.pos) : s.LiesIn P x := by
  induction h with
  | letDecl _ _ _ _ hinit _ =>
    simp only [List.forall_mem_cons, List.forall_mem_append] at hts
    exact .of_parts hts.1 (List.forall_mem_singleton.mpr (hinit.liesIn hts.2.2.2.2.1)) (List.forall_mem_nil _)
  | assign _ _ hx _ =>
    simp only [List.forall_mem_cons, List.forall_mem_append] at hts
    exact .of_parts hts.1 (List.forall_mem_singleton.mpr (hx.liesIn hts.2.2.1)) (List.forall_mem_nil _)
  | fnDecl _ _ _ _ _ _ _ _ _ ih =>
    simp only [List.forall_mem_cons, List.forall_mem_append] at hts
    refine .of_parts (Token.at_placeOf ?_ (by simp)) (List.forall_mem_nil _) (ih hts.2.2.2.2.2.2.2.2).2
    simp only [List.forall_mem_append, List.forall_mem_singleton]
    exact ⟨hts.1, hts.2.1, hts.2.2.1⟩
  | cond _ _ htest _ _ _ ihbody ihother =>
    simp only [List.forall_mem_cons, List.forall_mem_append] at hts
    refine .of_parts hts.1 (List.forall_mem_singleton.mpr (htest.liesIn hts.2.2.1)) ?_
    exact List.forall_mem_append.mpr ⟨(ihbody hts.2.2.2.2.1).2, ihother hts.2.2.2.2.2⟩
  | loop _ _ _ hbounds _ ih =>
    simp only [List.forall_mem_cons, List.forall_mem_append] at hts
    exact .of_parts hts.1 (List.forall_mem_singleton.mpr (hbounds.liesIn hts.2.2.2.1)) (ih hts.2.2.2.2).2
  | retNone => exact .of_parts (hts _ List.mem_cons_self) (List.forall_mem_nil _) (List.forall_mem_nil _)
  | retSome _ hx _ =>
    simp only [List.forall_mem_cons, List.forall_mem_append] at hts
    exact .of_parts hts.1 (List.forall_mem_singleton.mpr (hx.liesIn hts.2.1)) (List.forall_mem_nil _)
  | expr hx _ =>
    rw [List.forall_mem_append] at hts
    obtain ⟨t, us, rfl, -⟩ := hx.head
    refine .of_parts (Token.at_placeOf hts.1 nofun) ?_ (List.forall_mem_nil _)
    exact List.forall_mem_singleton.mpr (hx.liesIn hts.1)
  | block _ ih => exact .of_parts (ih hts).1 (List.forall_mem_nil _) (ih hts).2
  | nil => exact List.forall_mem_nil _
  | cons _ _ ih ihss =>
    rw [List.forall_mem_append] at hts
    exact List.forall_mem_cons.mpr ⟨ih hts.1, ihss hts.2⟩
  | braces _ _ _ ih =>
    simp only [List.forall_mem_cons, List.forall_mem_append] at hts
    exact ⟨hts.1, ih hts.2.1⟩
  | noElse => exact List.forall_mem_nil _
  | elseIf _ _ _ ih =>
    rw [List.forall_mem_cons] at hts
    exact List.forall_mem_singleton.mpr (ih hts.2)
  | elseBlock _ _ ih =>
    rw [List.forall_mem_cons] at hts
    exact List.forall_mem_singleton.mpr (.of_parts (ih hts.2).1 (List.forall_mem_nil _) (ih hts.2).2)

end Grammar

/-- **Programs lie where their tokens are.** All expressions and statements of a sound program that is read from a text
stand at places of tokens of the text. -/
theorem Program.liesIn_ofSource {P : Pos → Prop} {source : Bytes} (h : (ofSource source).isSound = true)
    (hts : ∀ t ∈ (Token.scan source).tokens, P t.pos) : ∀ s ∈ (ofSource source).stmts, s.LiesIn P := by
  obtain ⟨ts, q, hscan, -, hderives⟩ := exists_derives_of_errors_nil (List.isEmpty_iff.mp h)
  rw [hscan, List.forall_mem_append] at hts
  exact hderives.liesIn hts.1

end Ouroboros
