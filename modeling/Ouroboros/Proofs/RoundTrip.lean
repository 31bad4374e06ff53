/-
Canonical text reads back.

The text of a derived program is read as the tokens the program was derived from, in their plain form: `printed_expr` for
expressions and `printed_stmt` for statements, by induction on derivations. Two things carry the induction. An operand of
a derived expression binds at least as tightly as its place asks for, so no parentheses are added. And the end of every
part of the text is loose or closed as the part behind it needs.

`render_ofSource` is the round trip: the text of a faultless program has the program's tokens and gives back the program,
up to places, so it is its own canonical text.
-/
import Ouroboros.Proofs.Parsing.Exact
import Ouroboros.Proofs.Places
import Ouroboros.Proofs.Scanning.Writing

namespace Ouroboros

open Token Grammar

/-! ## Fixed texts -/

/-- whether a text starts with a byte that continues nothing -/
def headApart : Bytes → Bool
  | [] => false
  | b :: _ => !Bytes.isNameByte b && b != 62 && b != Bytes.slash && b != Bytes.point

theorem apart_append {w : Bytes} (h : headApart w = true) (u : Bytes) : apart (w ++ u) = true := by
  cases w with
  | nil => cases h
  | cons b w =>
    simp only [headApart, Bool.and_eq_true, bne_iff_ne] at h
    have hpoint : (b == Bytes.point) = false := by simpa using h.2
    simp only [List.cons_append, apart, hpoint, Bool.false_and, Bool.not_false, Bool.and_true, Bool.and_eq_true,
      bne_iff_ne]
    exact h.1

/-- words and signs with blanks between them; `none` is a blank -/
def spell (l : List (Option TokenKind)) : Bytes := l.flatMap fun
  | none => [Bytes.space]
  | some k => k.token.lexeme

/-- whether no word is continued by what follows it -/
def spaced : List (Option TokenKind) → Bool
  | [] => true
  | none :: rest => spaced rest
  | some k :: rest => (isSign k || (k.spelling?.isSome && headApart (spell rest))) && spaced rest

theorem closed_spell (l : List (Option TokenKind)) (h : spaced l = true) :
    Closed (spell l) ((l.filterMap id).map TokenKind.token) := by
  induction l with
  | nil => exact .nil
  | cons x l ih =>
    cases x with
    | none => exact (closed_blank (b := Bytes.space) rfl).append (ih h)
    | some k =>
      simp only [spaced, Bool.and_eq_true, Bool.or_eq_true] at h
      rcases h.1 with hsign | ⟨hword, hhead⟩
      · exact (closed_sign hsign).append (ih h.2)
      · obtain ⟨w, hw⟩ := Option.isSome_iff_exists.1 hword
        exact (loose_fixed hw).append (ih h.2) fun u _ => apart_append hhead u

/-! ## Expressions -/

/-- how tightly the expressions of a level bind at least -/
def Grammar.Level.strength : Level → Nat
  | .comparison => 1
  | .range => 2
  | .additive => 3
  | .multiplicative => 4
  | .unary => 5
  | .call | .primary => 6

theorem strength_le_next {l m : Level} (h : l.next? = some m) : l.strength ≤ m.strength := by
  cases l <;> cases h <;> decide

/-- an operator asks of its operands what their levels give -/
theorem strength_operator {l m : Level} (hl : l.next? = some m) {k : TokenKind} {op : BinaryOp} (h : Operator l k op) :
    op.strength = l.strength ∧ op.strength + 1 = m.strength := by
  cases h <;> cases hl <;> decide

section Expressions

variable {w w₁ w₂ : Bytes} {ts ts₁ ts₂ : List Token}

theorem closed_operator {l : Level} {k : TokenKind} {op : BinaryOp} (h : Operator l k op) :
    Closed (text " " ++ op.sign ++ text " ") [k.token] := by
  cases h
  · exact closed_spell [none, some .greater, none] rfl
  · exact closed_spell [none, some .plus, none] rfl
  · exact closed_spell [none, some .minus, none] rfl
  · exact closed_spell [none, some .star, none] rfl
  · exact closed_spell [none, some .slash, none] rfl

/-- the text behind a loose one starts with a byte that continues nothing -/
theorem Loose.append {F : Bytes → Prop} (h₁ : Loose w₁ ts₁) (h₂ : Writes F w₂ ts₂) (h : headApart w₂ = true) :
    Writes F (w₁ ++ w₂) (ts₁ ++ ts₂) :=
  Writes.append h₁ h₂ fun u _ => apart_append h u

/-- the text of a phrase is read as its tokens, and the phrase needs no parentheses at its place -/
def Printed : (s : Phrase) → List Token → s.Tree → Prop
  | .expr l, ts, e => l.strength ≤ e.strength ∧ Loose e.render (ts.map plain)
  | .items, ts, es => es ≠ [] ∧ Loose (Expr.renderArgs es) (ts.map plain)
  | .args, ts, es => Loose (Expr.renderArgs es) (ts.map plain)

theorem parenthesized_of_le {needed given : Nat} (h : needed ≤ given) (w : Bytes) :
    Expr.parenthesized (given < needed) w = w := by
  simp [Expr.parenthesized, Nat.not_lt.2 h]

theorem render_binary {l m : Level} (hl : l.next? = some m) {k : TokenKind} {op : BinaryOp} (hop : Operator l k op)
    {a b : Expr} (ha : l.strength ≤ a.strength) (hb : m.strength ≤ b.strength) (p : Pos) :
    (Expr.binary p op a b).render = a.render ++ ((text " " ++ op.sign ++ text " ") ++ b.render) := by
  obtain ⟨hleft, hright⟩ := strength_operator hl hop
  rw [Expr.render, parenthesized_of_le (by rw [hleft]; exact ha), parenthesized_of_le (by rw [hright]; exact hb)]
  simp only [List.append_assoc]

theorem render_range {a b : Expr} (ha : 3 ≤ a.strength) (hb : 3 ≤ b.strength) (p : Pos) :
    (Expr.range p a b).render = a.render ++ (text ".." ++ b.render) := by
  rw [Expr.render, parenthesized_of_le ha, parenthesized_of_le hb, List.append_assoc]

theorem render_await {e : Expr} (he : 6 ≤ e.strength) (p : Pos) :
    (Expr.await p e).render = text "await " ++ e.render := by
  rw [Expr.render, parenthesized_of_le he]

theorem render_call {f : Expr} (hf : 6 ≤ f.strength) (p : Pos) (es : List Expr) :
    (Expr.call p f es).render = f.render ++ (text "(" ++ (Expr.renderArgs es ++ text ")")) := by
  rw [Expr.render, parenthesized_of_le hf]
  simp only [List.append_assoc]

theorem render_group (p : Pos) (e : Expr) : (Expr.group p e).render = text "(" ++ (e.render ++ text ")") := by
  rw [Expr.render, List.append_assoc]

theorem renderArgs_cons (e : Expr) {es : List Expr} (h : es ≠ []) :
    Expr.renderArgs (e :: es) = e.render ++ (text ", " ++ Expr.renderArgs es) := by
  cases es with
  | nil => exact absurd rfl h
  | cons e' es => rw [Expr.renderArgs_cons_cons, List.append_assoc]

/-- a numeral is not empty -/
theorem lexeme_ne_nil {t : Token} (h : t.IsSpelled) (hk : t.kind = .number) : t.lexeme ≠ [] := by
  obtain ⟨k, lexeme, literal, pos⟩ := t
  simp only [IsSpelled] at h hk
  subst hk
  cases h with
  | fixed h => cases h
  | whole | decimal => simp

/-- **Expressions are printed.** The text of a derived expression is read as its tokens. -/
theorem printed_expr {s : Phrase} {x : s.Tree} (h : DerivesExpr s ts x) (hts : ∀ t ∈ ts, t.IsSpelled) :
    Printed s ts x := by
  induction h with
  | tighter hl _ ih => exact ⟨Nat.le_trans (strength_le_next hl) (ih hts).1, (ih hts).2⟩
  | binary hl _ ht _ iha ihb =>
    simp only [List.forall_mem_append, List.forall_mem_cons] at hts
    obtain ⟨ha, hla⟩ := iha hts.1
    obtain ⟨hb, hlb⟩ := ihb hts.2.2
    obtain ⟨w, hw⟩ := ht.spelling
    refine ⟨Nat.le_of_eq (strength_operator hl ht).1.symm, ?_⟩
    rw [render_binary hl ht ha hb, List.map_append, List.map_cons, plain_eq hts.2.1 rfl hw]
    exact Loose.append hla ((closed_operator ht).append hlb) rfl
  | range _ ht _ iha ihb =>
    simp only [List.forall_mem_append, List.forall_mem_cons] at hts
    obtain ⟨ha, hla⟩ := iha hts.1
    obtain ⟨hb, hlb⟩ := ihb hts.2.2
    refine ⟨Nat.le_refl _, ?_⟩
    rw [render_range ha hb, List.map_append, List.map_cons, plain_eq hts.2.1 ht rfl]
    -- a point in front of a point continues no numeral
    exact Writes.append hla ((closed_sign (k := .dots) rfl).append hlb) fun u _ => rfl
  | await ht _ ih =>
    simp only [List.forall_mem_cons] at hts
    obtain ⟨he, hle⟩ := ih hts.2
    refine ⟨Nat.le_refl _, ?_⟩
    rw [render_await he, List.map_cons, plain_eq hts.1 ht rfl]
    exact (closed_spell [some .awaitWord, none] rfl).append hle
  | call _ ht _ hu ihf ihes =>
    simp only [List.forall_mem_append, List.forall_mem_cons] at hts
    obtain ⟨hf, hlf⟩ := ihf hts.1
    refine ⟨Nat.le_refl _, ?_⟩
    rw [render_call hf, List.map_append, List.map_cons, List.map_append, List.map_singleton, plain_eq hts.2.1 ht rfl,
      plain_eq hts.2.2.2.1 hu rfl]
    have hclose := (closed_sign (k := .rightParen) rfl).loose
    exact Loose.append hlf ((closed_sign (k := .leftParen) rfl).append (Loose.append (ihes hts.2.2.1) hclose rfl)) rfl
  | number ht =>
    have hspelled := List.forall_mem_singleton.1 hts
    refine ⟨Nat.le_refl _, ?_⟩
    have hloose := loose_of_isSpelled hspelled
    rw [Expr.render, if_neg (lexeme_ne_nil hspelled ht)]
    simpa [plain, ht] using hloose
  | string ht =>
    refine ⟨Nat.le_refl _, ?_⟩
    have hloose := loose_of_isSpelled (List.forall_mem_singleton.1 hts)
    rw [Expr.render]
    simpa [plain, ht] using hloose
  | ident ht =>
    refine ⟨Nat.le_refl _, ?_⟩
    have hloose := loose_of_isSpelled (List.forall_mem_singleton.1 hts)
    rw [Expr.render]
    simpa [plain, ht] using hloose
  | group ht _ hu ih =>
    simp only [List.forall_mem_append, List.forall_mem_cons] at hts
    refine ⟨Nat.le_refl _, ?_⟩
    rw [render_group, List.map_cons, List.map_append, List.map_singleton, plain_eq hts.1 ht rfl,
      plain_eq hts.2.2.1 hu rfl]
    have hclose := (closed_sign (k := .rightParen) rfl).loose
    exact (closed_sign (k := .leftParen) rfl).append (Loose.append (ih hts.2.1).2 hclose rfl)
  | one _ ih => exact ⟨by simp, (ih hts).2⟩
  | more _ ht _ ih ihes =>
    simp only [List.forall_mem_append, List.forall_mem_cons] at hts
    obtain ⟨hne, hles⟩ := ihes hts.2.2
    refine ⟨by simp, ?_⟩
    rw [renderArgs_cons _ hne, List.map_append, List.map_cons, plain_eq hts.2.1 ht rfl]
    exact Loose.append (ih hts.1).2 ((closed_spell [some .comma, none] rfl).append hles) rfl
  | noArgs => exact Writes.nil
  | args _ ih => exact (ih hts).2

end Expressions

/-! ## Parts of statements -/

section Parts

variable {w : Bytes} {ts us : List Token} {t : Token}

theorem loose_name (h : t.IsSpelled) (hk : t.kind = .identifier) : Loose t.lexeme [t.plain] := by
  have := loose_of_isSpelled h
  simpa [plain, hk] using this

/-- a type behind its sign, or nothing -/
theorem printed_ascription {sign : TokenKind} {v : Bytes} (hsign : sign.spelling? = some v) {type : Option TypeRef}
    (h : Ascription sign us type) (hus : ∀ t ∈ us, t.IsSpelled) (hw : Loose w ts) {intro : Bytes}
    (hintro : Closed intro [sign.token]) (hhead : headApart intro = true) :
    Loose (w ++ TypeRef.renderAfter intro type) (ts ++ us.map plain) := by
  cases h with
  | absent =>
    rw [TypeRef.renderAfter, List.append_nil, List.map_nil, List.append_nil]
    exact hw
  | @present t u ht hu =>
    simp only [List.forall_mem_cons] at hus
    have hne : u.kind ≠ .stringLiteral := by
      intro hk
      rw [hk] at hu
      exact absurd hu (by decide)
    have htype : Loose u.lexeme [u.plain] := by
      have := loose_of_isSpelled hus.2.1
      simpa [plain, hne] using this
    rw [TypeRef.renderAfter, List.map_cons, plain_eq hus.1 ht hsign]
    refine Writes.append hw (hintro.append htype) fun u _ => ?_
    rw [List.append_assoc]
    exact apart_append hhead _

theorem printed_param {p : Param} (h : DerivesParam ts p) (hts : ∀ t ∈ ts, t.IsSpelled) :
    Loose p.render (ts.map plain) := by
  cases h with
  | mk ht hus =>
    simp only [List.forall_mem_cons] at hts
    exact printed_ascription rfl hus hts.2 (loose_name hts.1 ht) (closed_spell [some .colon, none] rfl) rfl

theorem printed_params {ps : List Param} (h : Listed DerivesParam ts ps) (hts : ∀ t ∈ ts, t.IsSpelled) :
    Loose (Bytes.join (text ", ") (ps.map Param.render)) (ts.map plain) := by
  cases h with
  | none => exact Writes.nil
  | some h =>
    induction h with
    | one h => exact printed_param h hts
    | @more ts us t p ps h ht hps ih =>
      simp only [List.forall_mem_append, List.forall_mem_cons] at hts
      have hcomma : Closed (text ", ") [TokenKind.comma.token] := closed_spell [some .comma, none] rfl
      have hboth := Loose.append (printed_param h hts.1) (hcomma.append (ih hts.2.2)) rfl
      have htokens : (ts ++ t :: us).map plain = ts.map plain ++ ([TokenKind.comma.token] ++ us.map plain) := by
        rw [List.map_append, List.map_cons, plain_eq hts.2.1 ht rfl]
        rfl
      rw [htokens]
      cases hps <;>
      · simp only [List.map_cons, Bytes.join, List.append_assoc] at hboth ⊢
        exact hboth

theorem printed_mark {word : TokenKind} {v : Bytes} (hword : word.spelling? = some v) {b : Bool} (h : Mark word ts b)
    (hts : ∀ t ∈ ts, t.IsSpelled) (hw : Closed w [word.token]) :
    Closed (if b = true then w else []) (ts.map plain) := by
  cases h with
  | absent => exact Writes.nil
  | present ht =>
    rw [List.map_singleton, plain_eq (List.forall_mem_singleton.1 hts) ht hword]
    exact hw

theorem closed_spaces (n : Nat) : Closed (List.replicate n Bytes.space) [] := by
  induction n with
  | zero => exact Writes.nil
  | succ n ih => exact (closed_blank (b := Bytes.space) rfl).append ih

/-- a line is closed by its end -/
theorem closed_line (depth : Nat) (h : Loose w ts) : Closed (Stmt.line depth w) ts := by
  have hend : Closed (w ++ text "\n") ts := by
    have := Loose.append h (closed_blank (b := Bytes.newline) rfl) rfl
    rwa [List.append_nil] at this
  rw [Stmt.line, List.append_assoc]
  exact (closed_spaces _).append hend

end Parts

/-! ## Statements -/

section Statements

variable {w : Bytes} {ts us : List Token}

/-- the brace that closes a block, on its line -/
theorem closed_brace (depth : Nat) : Closed (Stmt.line depth (text "\x7d")) [TokenKind.rightBrace.token] :=
  closed_line depth (closed_sign (k := .rightBrace) rfl).loose

/-- a head and a block behind it -/
theorem closed_withBlock (depth : Nat) (hw : Closed w ts) {ss : List Stmt} (hnil : ss = [] → us = [])
    (h : Closed (Stmt.renderAll (depth + 1) ss) us) :
    Closed (Stmt.withBlock depth w ss (Stmt.renderAll (depth + 1) ss)) (ts ++ Stmt.braced us) := by
  unfold Stmt.withBlock
  split
  · rename_i hempty
    rw [hnil (List.isEmpty_iff.1 hempty)]
    exact closed_line depth (hw.append (closed_spell [some .leftBrace, some .rightBrace] rfl).loose)
  · have hopen : Closed (Stmt.line depth (w ++ text "\x7b")) (ts ++ [TokenKind.leftBrace.token]) :=
      closed_line depth (hw.append (closed_sign (k := .leftBrace) rfl).loose)
    have hall := (hopen.append h).append (closed_brace depth)
    simpa [Stmt.braced] using hall

/-- the text of a phrase of a program is read as its tokens. A choice may stand behind another text on its line; the end
of a choice starts with the brace that closes the block in front of it. -/
def PrintedStmt : (s : Clause) → List Token → s.Tree → Prop
  | .stmt, ts, s => (∀ depth, Closed (Stmt.renderAt depth s) (ts.map plain)) ∧
    ∀ pos test thenPos thenBody other, s = .cond pos test thenPos thenBody other → ∀ depth lead ls, Closed lead ls →
      Closed (Stmt.condText depth lead test.render (Stmt.renderAll (depth + 1) thenBody) (Stmt.renderElse depth other))
        (ls ++ ts.map plain)
  | .stmts, ts, ss => ∀ depth, Closed (Stmt.renderAll depth ss) (ts.map plain)
  | .block, ts, b => ∃ us, ts.map plain = Stmt.braced us ∧ (b.2 = [] → us = []) ∧
    ∀ depth, Closed (Stmt.renderAll depth b.2) us
  | .otherwise, ts, other => ∀ depth, Closed (Stmt.renderElse depth other) (TokenKind.rightBrace.token :: ts.map plain)

/-- a statement other than a choice -/
theorem PrintedStmt.simple {s : Stmt} (h : ∀ depth, Closed (Stmt.renderAt depth s) (ts.map plain))
    (hs : ∀ pos test thenPos thenBody other, s ≠ .cond pos test thenPos thenBody other) : PrintedStmt .stmt ts s :=
  ⟨h, fun pos test thenPos thenBody other heq => absurd heq (hs pos test thenPos thenBody other)⟩

/-- a statement that starts with `if` is a choice -/
theorem exists_cond {first : Token} {s : Stmt} (h : DerivesStmt .stmt (first :: ts) s) (hk : first.kind = .ifWord) :
    ∃ pos test thenPos thenBody other, s = .cond pos test thenPos thenBody other := by
  generalize hts : first :: ts = us at h
  cases h with
  | cond => exact ⟨_, _, _, _, _, rfl⟩
  | letDecl hk' | assign hk' | loop hk' | retNone hk' | retSome hk' =>
    cases hts
    rw [hk] at hk'
    cases hk'
  | fnDecl has hgs hword =>
    obtain ⟨t, tail, heq, -, ht⟩ := Parse.fnDecl_head has hgs hword _
    rw [heq] at hts
    cases hts
    rw [hk] at ht
    exact absurd ht (by decide)
  | expr hx _ =>
    obtain ⟨t, us, rfl, ht⟩ := hx.head
    cases hts
    rw [hk] at ht
    cases ht
  | block h =>
    obtain ⟨t, us, rfl, ht⟩ := h.block_head
    cases hts
    rw [hk] at ht
    cases ht

/-- an expression and the semicolon behind it -/
theorem printed_semicolon {vs : List Token} {x : Expr} {semi : Token} (hx : DerivesExpr (.expr .comparison) vs x)
    (hsemi : semi.kind = .semicolon) (hts : ∀ t ∈ vs ++ [semi], t.IsSpelled) :
    Loose (x.render ++ text ";") ((vs ++ [semi]).map plain) := by
  simp only [List.forall_mem_append, List.forall_mem_cons] at hts
  rw [List.map_append, List.map_singleton, plain_eq hts.2.1 hsemi rfl]
  exact Loose.append (printed_expr hx hts.1).2 (closed_sign (k := .semicolon) rfl).loose rfl

theorem closed_equals : Closed (text " = ") [TokenKind.equals.token] := closed_spell [none, some .equals, none] rfl

theorem printed_letDecl {word name sign semi : Token} {vs : List Token} {type : Option TypeRef} {init : Expr}
    (hword : word.kind = .letWord) (hname : name.kind = .identifier) (htype : Ascription .colon us type)
    (hsign : sign.kind = .equals) (hinit : DerivesExpr (.expr .comparison) vs init) (hsemi : semi.kind = .semicolon)
    (hts : ∀ t ∈ word :: name :: (us ++ sign :: (vs ++ [semi])), t.IsSpelled) (depth : Nat) :
    Closed (Stmt.renderAt depth (.letDecl word.pos name.lexeme type init))
      ((word :: name :: (us ++ sign :: (vs ++ [semi]))).map plain) := by
  rw [List.forall_mem_cons, List.forall_mem_cons, List.forall_mem_append, List.forall_mem_cons] at hts
  obtain ⟨sword, sname, stype, ssign, svalue⟩ := hts
  have hlet : Closed (text "let ") [TokenKind.letWord.token] := closed_spell [some .letWord, none] rfl
  have hcolon : Closed (text ": ") [TokenKind.colon.token] := closed_spell [some .colon, none] rfl
  have hhead := printed_ascription rfl htype stype (loose_name sname hname) hcolon rfl
  have hvalue := printed_semicolon hinit hsemi svalue
  have hall := closed_line depth (hlet.append (Loose.append hhead (closed_equals.append hvalue) rfl))
  rw [List.map_cons, List.map_cons, List.map_append, List.map_cons, plain_eq sword hword rfl, plain_eq ssign hsign rfl]
  simpa only [Stmt.renderAt, List.append_assoc, List.cons_append, List.nil_append] using hall

theorem printed_assign {name sign semi : Token} {vs : List Token} {x : Expr} (hname : name.kind = .identifier)
    (hsign : sign.kind = .equals) (hx : DerivesExpr (.expr .comparison) vs x) (hsemi : semi.kind = .semicolon)
    (hts : ∀ t ∈ name :: sign :: (vs ++ [semi]), t.IsSpelled) (depth : Nat) :
    Closed (Stmt.renderAt depth (.assign name.pos name.lexeme x)) ((name :: sign :: (vs ++ [semi])).map plain) := by
  simp only [List.forall_mem_cons] at hts
  obtain ⟨sname, ssign, svalue⟩ := hts
  have hvalue := printed_semicolon hx hsemi svalue
  have hall := closed_line depth (Loose.append (loose_name sname hname) (closed_equals.append hvalue) rfl)
  rw [List.map_cons, List.map_cons, plain_eq ssign hsign rfl]
  simpa only [Stmt.renderAt, List.append_assoc, List.cons_append, List.nil_append] using hall

theorem printed_loop {word var inWord : Token} {vs bs : List Token} {bounds : Expr} {bodyPos : Pos} {body : List Stmt}
    (hword : word.kind = .forWord) (hvar : var.kind = .identifier) (hin : inWord.kind = .inWord)
    (hbounds : DerivesExpr (.expr .comparison) vs bounds) (hbody : PrintedStmt .block bs (bodyPos, body))
    (hts : ∀ t ∈ word :: var :: inWord :: (vs ++ bs), t.IsSpelled) (depth : Nat) :
    Closed (Stmt.renderAt depth (.loop word.pos var.lexeme bounds bodyPos body))
      ((word :: var :: inWord :: (vs ++ bs)).map plain) := by
  simp only [List.forall_mem_cons, List.forall_mem_append] at hts
  obtain ⟨sword, svar, sin, sbounds, -⟩ := hts
  obtain ⟨us, hus, hnil, hss⟩ := hbody
  have hfor : Closed (text "for ") [TokenKind.forWord.token] := closed_spell [some .forWord, none] rfl
  have hinText : Closed (text " in ") [TokenKind.inWord.token] := closed_spell [none, some .inWord, none] rfl
  have hblank : Closed (text " ") [] := closed_spell [none] rfl
  have hrange := Loose.append (printed_expr hbounds sbounds).2 hblank rfl
  have hhead := hfor.append (Loose.append (loose_name svar hvar) (hinText.append hrange) rfl)
  have hall := closed_withBlock depth hhead hnil (hss (depth + 1))
  rw [List.map_cons, List.map_cons, List.map_cons, List.map_append, plain_eq sword hword rfl, plain_eq sin hin rfl, hus]
  simpa only [Stmt.renderAt, List.append_assoc, List.cons_append, List.nil_append, List.append_nil] using hall

theorem printed_fnDecl {word name left right : Token} {as gs ps rs bs : List Token} {isAsync isGpu : Bool}
    {params : List Param} {result : Option TypeRef} {pos bodyPos : Pos} {body : List Stmt}
    (has : Mark .asyncWord as isAsync) (hgs : Mark .gpuWord gs isGpu) (hword : word.kind = .fnWord)
    (hname : name.kind = .identifier) (hleft : left.kind = .leftParen) (hps : Listed DerivesParam ps params)
    (hright : right.kind = .rightParen) (hrs : Ascription .arrow rs result)
    (hbody : PrintedStmt .block bs (bodyPos, body))
    (hts : ∀ t ∈ as ++ (gs ++ word :: name :: left :: (ps ++ right :: (rs ++ bs))), t.IsSpelled) (depth : Nat) :
    Closed (Stmt.renderAt depth (.fnDecl pos ⟨name.lexeme, params, result, isAsync, isGpu⟩ bodyPos body))
      ((as ++ (gs ++ word :: name :: left :: (ps ++ right :: (rs ++ bs)))).map plain) := by
  simp only [List.forall_mem_cons, List.forall_mem_append] at hts
  obtain ⟨sas, sgs, sword, sname, sleft, sps, sright, srs, -⟩ := hts
  obtain ⟨us, hus, hnil, hss⟩ := hbody
  have hasyncText : Closed (text "async ") [TokenKind.asyncWord.token] := closed_spell [some .asyncWord, none] rfl
  have hgpuText : Closed (text "gpu ") [TokenKind.gpuWord.token] := closed_spell [some .gpuWord, none] rfl
  have hasync := printed_mark rfl has sas hasyncText
  have hgpu := printed_mark rfl hgs sgs hgpuText
  have hfn : Closed (text "fn ") [TokenKind.fnWord.token] := closed_spell [some .fnWord, none] rfl
  have hopen : Closed (text "(") [TokenKind.leftParen.token] := closed_spell [some .leftParen] rfl
  have hclose : Closed (text ")") [TokenKind.rightParen.token] := closed_spell [some .rightParen] rfl
  have harrow : Closed (text " -> ") [TokenKind.arrow.token] := closed_spell [none, some .arrow, none] rfl
  have hblank : Closed (text " ") [] := closed_spell [none] rfl
  have hparams := hopen.append (Loose.append (printed_params hps sps) hclose.loose rfl)
  have hnamed := hfn.append (Loose.append (loose_name sname hname) hparams rfl)
  have hsignature := hasync.append (hgpu.append (printed_ascription rfl hrs srs hnamed harrow rfl))
  have hall := closed_withBlock depth (Loose.append hsignature hblank rfl) hnil (hss (depth + 1))
  simp only [List.map_append, List.map_cons, plain_eq sword hword rfl, plain_eq sleft hleft rfl,
    plain_eq sright hright rfl, hus]
  simpa only [Stmt.renderAt, Signature.render, List.append_assoc, List.cons_append, List.nil_append, List.append_nil]
    using hall

theorem printed_cond {word left right : Token} {vs bs os : List Token} {test : Expr} {thenPos : Pos}
    {thenBody : List Stmt} {other : Option Stmt} (hword : word.kind = .ifWord) (hleft : left.kind = .leftParen)
    (htest : DerivesExpr (.expr .comparison) vs test) (hright : right.kind = .rightParen)
    (hbody : PrintedStmt .block bs (thenPos, thenBody)) (hother : PrintedStmt .otherwise os other)
    (hts : ∀ t ∈ word :: left :: (vs ++ right :: (bs ++ os)), t.IsSpelled) (depth : Nat) {lead : Bytes}
    {ls : List Token} (hlead : Closed lead ls) :
    Closed (Stmt.condText depth lead test.render (Stmt.renderAll (depth + 1) thenBody) (Stmt.renderElse depth other))
      (ls ++ (word :: left :: (vs ++ right :: (bs ++ os))).map plain) := by
  simp only [List.forall_mem_cons, List.forall_mem_append] at hts
  obtain ⟨sword, sleft, stest, sright, -⟩ := hts
  obtain ⟨us, hus, -, hss⟩ := hbody
  have hif : Closed (text "if (") [TokenKind.ifWord.token, TokenKind.leftParen.token] :=
    closed_spell [some .ifWord, none, some .leftParen] rfl
  have hopen : Closed (text ") \x7b") [TokenKind.rightParen.token, TokenKind.leftBrace.token] :=
    closed_spell [some .rightParen, none, some .leftBrace] rfl
  have hline := hlead.append (hif.append (Loose.append (printed_expr htest stest).2 hopen.loose rfl))
  have hthen := Closed.append (closed_line depth hline) (hss (depth + 1))
  have hall := Closed.append hthen (hother depth)
  simp only [List.map_append, List.map_cons, plain_eq sword hword rfl, plain_eq sleft hleft rfl,
    plain_eq sright hright rfl, hus, Stmt.braced]
  simpa only [Stmt.condText, List.append_assoc, List.cons_append, List.nil_append] using hall

/-- the end of a choice without a second block -/
theorem printed_noElse : PrintedStmt .otherwise [] none := by
  intro depth
  exact closed_brace depth

theorem printed_elseIf {word first : Token} {s : Stmt} (hword : word.kind = .elseWord) (hfirst : first.kind = .ifWord)
    (hs : DerivesStmt .stmt (first :: ts) s) (h : PrintedStmt .stmt (first :: ts) s) (sword : word.IsSpelled) :
    PrintedStmt .otherwise (word :: first :: ts) (some s) := by
  intro depth
  obtain ⟨pos, test, thenPos, thenBody, other, rfl⟩ := exists_cond hs hfirst
  have hlead : Closed (text "\x7d else ") [TokenKind.rightBrace.token, TokenKind.elseWord.token] :=
    closed_spell [some .rightBrace, none, some .elseWord, none] rfl
  have hall := h.2 pos test thenPos thenBody other rfl depth _ _ hlead
  rw [List.map_cons, plain_eq sword hword rfl, Stmt.renderElse]
  exact hall

theorem printed_elseBlock {word : Token} {pos : Pos} {ss : List Stmt} (hword : word.kind = .elseWord)
    (h : PrintedStmt .block ts (pos, ss)) (sword : word.IsSpelled) :
    PrintedStmt .otherwise (word :: ts) (some (.block pos ss)) := by
  intro depth
  obtain ⟨us, hus, -, hss⟩ := h
  have hopen : Closed (text "\x7d else \x7b") [TokenKind.rightBrace.token, TokenKind.elseWord.token,
    TokenKind.leftBrace.token] := closed_spell [some .rightBrace, none, some .elseWord, none, some .leftBrace] rfl
  have hinner := Closed.append (closed_line depth hopen.loose) (hss (depth + 1))
  have hall := Closed.append hinner (closed_brace depth)
  rw [List.map_cons, plain_eq sword hword rfl, hus, Stmt.renderElse]
  simpa only [Stmt.braced, List.cons_append, List.nil_append, List.append_assoc] using hall

/-- **Statements are printed.** The text of a derived phrase of a program is read as its tokens. -/
theorem printed_stmt {s : Clause} {x : s.Tree} (h : DerivesStmt s ts x) (hts : ∀ t ∈ ts, t.IsSpelled) :
    PrintedStmt s ts x := by
  induction h with
  | letDecl hword hname htype hsign hinit hsemi =>
    exact .simple (printed_letDecl hword hname htype hsign hinit hsemi hts) (by simp)
  | assign hname hsign hx hsemi => exact .simple (printed_assign hname hsign hx hsemi hts) (by simp)
  | fnDecl has hgs hword hname hleft hps hright hrs _ ih =>
    have hbody := ih fun t ht => hts t (by simp [ht])
    exact .simple (printed_fnDecl has hgs hword hname hleft hps hright hrs hbody hts) (by simp)
  | cond hword hleft htest hright _ _ ihbody ihother =>
    have hbody := ihbody fun t ht => hts t (by simp [ht])
    have hother := ihother fun t ht => hts t (by simp [ht])
    have hall := @printed_cond _ _ _ _ _ _ _ _ _ _ hword hleft htest hright hbody hother hts
    refine ⟨fun depth => hall depth Writes.nil, ?_⟩
    rintro pos test thenPos thenBody other ⟨⟩ depth lead ls hlead
    exact hall depth hlead
  | loop hword hvar hin hbounds _ ih =>
    have hbody := ih fun t ht => hts t (by simp [ht])
    exact .simple (printed_loop hword hvar hin hbounds hbody hts) (by simp)
  | retNone hword hsemi =>
    simp only [List.forall_mem_cons] at hts
    refine .simple (fun depth => ?_) (by simp)
    rw [List.map_cons, List.map_singleton, plain_eq hts.1 hword rfl, plain_eq hts.2.1 hsemi rfl, Stmt.renderAt]
    exact closed_line depth (closed_spell [some .returnWord, some .semicolon] rfl).loose
  | retSome hword hx hsemi =>
    rw [List.forall_mem_cons] at hts
    refine .simple (fun depth => ?_) (by simp)
    have hreturn : Closed (text "return ") [TokenKind.returnWord.token] := closed_spell [some .returnWord, none] rfl
    have hall := closed_line depth (hreturn.append (printed_semicolon hx hsemi hts.2))
    rw [List.map_cons, plain_eq hts.1 hword rfl, Stmt.renderAt, List.append_assoc]
    exact hall
  | expr hx hsemi =>
    refine .simple (fun depth => ?_) (by simp)
    exact closed_line depth (printed_semicolon hx hsemi hts)
  | block _ ih =>
    obtain ⟨us, hus, hnil, hss⟩ := ih hts
    refine .simple (fun depth => ?_) (by simp)
    rw [hus]
    exact closed_withBlock depth Writes.nil hnil (hss (depth + 1))
  | nil => exact fun depth => Writes.nil
  | cons _ _ ih ihs =>
    rw [List.forall_mem_append] at hts
    intro depth
    rw [List.map_append]
    exact Closed.append ((ih hts.1).1 depth) (ihs hts.2 depth)
  | @braces left right us ss hleft hss hright ih =>
    simp only [List.forall_mem_cons, List.forall_mem_append] at hts
    refine ⟨us.map plain, ?_, ?_, ih hts.2.1⟩
    · rw [List.map_cons, List.map_append, List.map_singleton, plain_eq hts.1 hleft rfl, plain_eq hts.2.2.1 hright rfl]
      rfl
    · rintro rfl
      cases hss
      rfl
  | noElse => exact printed_noElse
  | elseIf hword hfirst h ih =>
    rw [List.forall_mem_cons] at hts
    exact printed_elseIf hword hfirst h (ih hts.2) hts.1
  | elseBlock hword _ ih =>
    rw [List.forall_mem_cons] at hts
    exact printed_elseBlock hword (ih hts.2) hts.1

end Statements

/-! ## Programs -/

namespace Program

/-- the text of derived statements is read as these statements, up to places -/
theorem ofSource_renderAll {ts : List Token} {stmts : List Stmt} (h : Derives ts stmts) (hts : ∀ t ∈ ts, t.IsSpelled) :
    ∃ stmts', ofSource (Stmt.renderAll 0 stmts) = ⟨stmts', []⟩ ∧ Stmt.unplacedAll stmts' = Stmt.unplacedAll stmts := by
  obtain ⟨herrors, us, q, htokens, hus⟩ := scanFrom_of_writes (printed_stmt h hts 0) trivial .start
  obtain ⟨stmts', hstmts', hsame⟩ := h.transfer hus
  have hscanned : scan (Stmt.renderAll 0 stmts) = ⟨us ++ [.finish q], []⟩ := by
    rw [← htokens, ← herrors]
    rfl
  exact ⟨stmts', ofSource_of_derives hscanned hstmts', hsame⟩

/-- **Round trip.** The text of a faultless program is scanned without a fault, into the tokens the program was read from,
up to places and the way strings are written. It is read without a fault, as the same program up to places, and it is
the text of that program. -/
theorem render_ofSource (source : Bytes) (h : (ofSource source).errors = []) :
    (scan (ofSource source).render).errors = [] ∧
    (scan (ofSource source).render).tokens.map plain = (scan source).tokens.map plain ∧
    (ofSource (ofSource source).render).errors = [] ∧
    Stmt.unplacedAll (ofSource (ofSource source).render).stmts = Stmt.unplacedAll (ofSource source).stmts ∧
    (ofSource (ofSource source).render).render = (ofSource source).render := by
  obtain ⟨ts, p, hscan, hts, hderives⟩ := exists_derives_of_errors_nil h
  obtain ⟨herrors, us, q, htokens, hus⟩ := scanFrom_of_writes (printed_stmt hderives hts 0) trivial .start
  obtain ⟨stmts, hstmts, hsame⟩ := hderives.transfer hus
  have hscanned : scan (ofSource source).render = ⟨us ++ [.finish q], []⟩ := by
    rw [← htokens, ← herrors]
    rfl
  have hread := ofSource_of_derives hscanned hstmts
  have hsame' : Stmt.unplacedAll stmts = Stmt.unplacedAll (ofSource source).stmts := hsame
  refine ⟨by rw [hscanned], ?_, by rw [hread], by rw [hread]; exact hsame', ?_⟩
  · rw [hscanned, hscan, List.map_append, List.map_append, hus]
    rfl
  · rw [hread, render, render, ← Stmt.renderAll_unplaced, hsame', Stmt.renderAll_unplaced]

/-- a string that can be written in several ways, an empty block, and a numeral in front of a range -/
theorem render_ofSource_choice :
    (ofSource (ofSource (text "if(a)\x7bf(\"\\t\");\x7delse\x7bfor i in 1.5..3\x7b\x7d\x7d")).render).errors = [] :=
  (render_ofSource _ (by decide +kernel)).2.2.1

end Program

end Ouroboros
