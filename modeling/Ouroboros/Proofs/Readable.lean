/-
Trees that were built by hand read back from their text.

`Readable` says that spelled tokens derive a tree, up to places. Every grouped tree that can be written is readable
(`readable_expr`, `readable_stmt`), so its text, which is also the text of the tree before grouping, reads back as the
grouped tree.

An expression is derived at the level of its outermost construct and at all looser levels. What carries the induction is
that the strength a place asks for is that of a level: an operand that binds less tightly is in parentheses, and a group
is derived at every level.
-/
import Ouroboros.Proofs.Grouping
import Ouroboros.Proofs.RoundTrip

namespace Ouroboros

open Grammar

/-! ## Readable trees -/

/-- spelled tokens derive the tree, up to places -/
def Readable {α : Type} (derives : List Token → α → Prop) (unplaced : α → α) (x : α) : Prop :=
  ∃ ts y, (∀ t ∈ ts, t.IsSpelled) ∧ derives ts y ∧ unplaced y = unplaced x

/-- spelled tokens derive the phrase of an expression -/
abbrev ReadableExpr (s : Phrase) (x : s.Tree) : Prop := Readable (DerivesExpr s) s.unplaced x

/-- spelled tokens derive the phrase of a program -/
abbrev ReadableStmt (s : Clause) (x : s.Tree) : Prop := Readable (DerivesStmt s) s.unplaced x

theorem isSpelled_token {k : TokenKind} {w : Bytes} (h : k.spelling? = some w) : k.token.IsSpelled := by
  simp only [Token.IsSpelled, TokenKind.token, h, Option.getD_some]
  exact .fixed h

theorem isSpelled_name {w : Bytes} (h : w.isName = true) : (Token.name w).IsSpelled := by
  cases w with
  | nil => cases h
  | cons b w =>
    simp only [Bytes.isName, Bool.and_eq_true, List.all_eq_true, beq_iff_eq] at h
    exact .name h.1.1 h.1.2 h.2

theorem exists_digit {w : Bytes} (h : w.isDigits = true) :
    ∃ b v, w = b :: v ∧ Bytes.isDigit b = true ∧ ∀ x ∈ v, Bytes.isDigit x = true := by
  cases w with
  | nil => cases h
  | cons b v =>
    simp only [Bytes.isDigits, List.isEmpty_cons, Bool.not_false, Bool.true_and, List.all_cons, Bool.and_eq_true,
      List.all_eq_true] at h
    exact ⟨b, v, rfl, h⟩

/-- the token of a numeral -/
def Token.numeral (w : Bytes) : Token := ⟨.number, w, .number (readNumeral w), .unknown⟩

theorem IsNumeral.isSpelled {w : Bytes} {isInt : Bool} (h : IsNumeral w isInt) : (Token.numeral w).IsSpelled := by
  cases h with
  | whole h =>
    obtain ⟨b, v, rfl, hb, hv⟩ := exists_digit h
    exact .whole hb hv
  | decimal hw hv =>
    obtain ⟨b, w, rfl, hb, hw⟩ := exists_digit hw
    obtain ⟨c, v, rfl, hc, hv⟩ := exists_digit hv
    exact .decimal hb hw hc hv

/-- a point shows that a numeral is no integer -/
theorem IsNumeral.spellsInt {w : Bytes} {isInt : Bool} (h : IsNumeral w isInt) : Parse.spellsInt w = isInt := by
  cases h with
  | whole h =>
    simp only [Bytes.isDigits, Bool.and_eq_true, List.all_eq_true] at h
    have hpoint : Bytes.point ∉ w := fun hmem => absurd (h.2 _ hmem) (by decide)
    simp [Parse.spellsInt, hpoint]
  | decimal => simp [Parse.spellsInt]

/-! ## Levels -/

namespace Grammar

/-- the number of levels that are looser -/
def Level.rank : Level → Nat
  | .comparison => 0
  | .range => 1
  | .additive => 2
  | .multiplicative => 3
  | .unary => 4
  | .call => 5
  | .primary => 6

theorem Level.exists_next {l m : Level} (h : l.rank < m.rank) : ∃ n, l.next? = some n ∧ n.rank = l.rank + 1 := by
  cases l with
  | primary => cases m <;> exact absurd h (by decide)
  | comparison | range | additive | multiplicative | unary | call => exact ⟨_, rfl, rfl⟩

theorem Level.eq_of_rank {l m : Level} (h : l.rank = m.rank) : l = m := by
  cases l <;> cases m <;> first | rfl | exact absurd h (by decide)

/-- what is derived at a level is derived at all looser ones -/
theorem DerivesExpr.loosen {l m : Level} {ts : List Token} {e : Expr} (h : DerivesExpr (.expr m) ts e)
    (hle : l.rank ≤ m.rank) : DerivesExpr (.expr l) ts e := by
  obtain ⟨k, hk⟩ := Nat.exists_eq_add_of_le hle
  induction k generalizing l with
  | zero =>
    rw [← Level.eq_of_rank hk]
    exact h
  | succ k ih =>
    obtain ⟨n, hn, hrank⟩ := Level.exists_next (l := l) (m := m) (by omega)
    exact .tighter hn (ih (by omega) (by omega))

/-- among the levels of operands, strength decides which is looser -/
theorem Level.rank_le {l m : Level} (hl : l ≠ .primary) (h : l.strength ≤ m.strength) : l.rank ≤ m.rank := by
  cases l <;> cases m <;> first | decide | exact absurd h (by decide) | exact absurd rfl hl

end Grammar

/-- the level of the construct that an operator makes -/
def BinaryOp.level : BinaryOp → Level
  | .greater => .comparison
  | .add | .sub => .additive
  | .mul | .div | .unknown => .multiplicative

/-- the level of the outermost construct of an expression -/
def Expr.level : Expr → Level
  | .binary _ op .. => op.level
  | .range .. => .range
  | .await .. => .unary
  | .call .. => .call
  | .number .. | .string .. | .ident .. | .group .. => .primary

theorem Expr.strength_level (e : Expr) : e.level.strength = e.strength := by
  cases e with
  | binary _ op _ _ => cases op <;> rfl
  | number | string | ident | range | call | await | group => rfl

/-- an operator with a sign stands between the operands that its level asks for -/
theorem exists_operator {op : BinaryOp} (h : op ≠ .unknown) :
    ∃ m, op.level.next? = some m ∧ m ≠ .primary ∧ Operator op.level op.kind op := by
  cases op with
  | greater => exact ⟨_, rfl, by decide, .greater⟩
  | add => exact ⟨_, rfl, by decide, .plus⟩
  | sub => exact ⟨_, rfl, by decide, .minus⟩
  | mul => exact ⟨_, rfl, by decide, .star⟩
  | div => exact ⟨_, rfl, by decide, .slash⟩
  | unknown => exact absurd rfl h

/-! ## Expressions -/

section Expressions

theorem ReadableExpr.loosen {l m : Level} {e : Expr} (h : ReadableExpr (.expr m) e) (hle : l.rank ≤ m.rank) :
    ReadableExpr (.expr l) e := by
  obtain ⟨ts, e', hts, he, heq⟩ := h
  exact ⟨ts, e', hts, he.loosen hle, heq⟩

theorem ReadableExpr.binary {l m : Level} (hl : l.next? = some m) {op : BinaryOp} (hop : Operator l op.kind op)
    {a b : Expr} (ha : ReadableExpr (.expr l) a) (hb : ReadableExpr (.expr m) b) (p : Pos) :
    ReadableExpr (.expr l) (.binary p op a b) := by
  obtain ⟨ts, a', hts, ha, heqa⟩ := ha
  obtain ⟨us, b', hus, hb, heqb⟩ := hb
  obtain ⟨w, hw⟩ := hop.spelling
  refine ⟨ts ++ op.kind.token :: us, _, ?_, .binary hl ha (t := op.kind.token) hop hb, ?_⟩
  · simp only [List.forall_mem_append, List.forall_mem_cons]
    exact ⟨hts, isSpelled_token hw, hus⟩
  · exact congrArg₂ (Expr.binary .unknown op) heqa heqb

theorem ReadableExpr.range {a b : Expr} (ha : ReadableExpr (.expr .additive) a) (hb : ReadableExpr (.expr .additive) b)
    (p : Pos) : ReadableExpr (.expr .range) (.range p a b) := by
  obtain ⟨ts, a', hts, ha, heqa⟩ := ha
  obtain ⟨us, b', hus, hb, heqb⟩ := hb
  refine ⟨ts ++ TokenKind.dots.token :: us, _, ?_, .range ha rfl hb, ?_⟩
  · simp only [List.forall_mem_append, List.forall_mem_cons]
    exact ⟨hts, isSpelled_token rfl, hus⟩
  · exact congrArg₂ (Expr.range .unknown) heqa heqb

theorem ReadableExpr.await {e : Expr} (h : ReadableExpr (.expr .call) e) (p : Pos) :
    ReadableExpr (.expr .unary) (.await p e) := by
  obtain ⟨ts, e', hts, he, heq⟩ := h
  refine ⟨TokenKind.awaitWord.token :: ts, _, ?_, .await rfl he, congrArg (Expr.await .unknown) heq⟩
  rw [List.forall_mem_cons]
  exact ⟨isSpelled_token rfl, hts⟩

theorem ReadableExpr.group {e : Expr} (h : ReadableExpr (.expr .comparison) e) (p : Pos) :
    ReadableExpr (.expr .primary) (.group p e) := by
  obtain ⟨ts, e', hts, he, heq⟩ := h
  refine ⟨TokenKind.leftParen.token :: (ts ++ [TokenKind.rightParen.token]), _, ?_, .group rfl he rfl,
    congrArg (Expr.group .unknown) heq⟩
  simp only [List.forall_mem_append, List.forall_mem_cons]
  exact ⟨isSpelled_token rfl, hts, isSpelled_token rfl, List.forall_mem_nil _⟩

theorem ReadableExpr.call {f : Expr} {es : List Expr} (hf : ReadableExpr (.expr .call) f)
    (hes : ReadableExpr .args es) (p : Pos) : ReadableExpr (.expr .call) (.call p f es) := by
  obtain ⟨ts, f', hts, hf, heqf⟩ := hf
  obtain ⟨us, es', hus, hes, heqes⟩ := hes
  refine ⟨ts ++ TokenKind.leftParen.token :: (us ++ [TokenKind.rightParen.token]), _, ?_, .call hf rfl hes rfl,
    congrArg₂ (Expr.call .unknown) heqf heqes⟩
  simp only [List.forall_mem_append, List.forall_mem_cons]
  exact ⟨hts, isSpelled_token rfl, hus, isSpelled_token rfl, List.forall_mem_nil _⟩

/-- a leaf is derived from its token -/
theorem ReadableExpr.leaf {t : Token} (ht : t.IsSpelled) {e e' : Expr} (h : DerivesExpr (.expr .primary) [t] e')
    (heq : e'.unplaced = e.unplaced) : ReadableExpr (.expr .primary) e :=
  ⟨[t], e', List.forall_mem_singleton.2 ht, h, heq⟩

theorem ReadableExpr.items {e : Expr} {es : List Expr} (he : ReadableExpr (.expr .comparison) e)
    (hes : ReadableExpr .args es) : ReadableExpr .items (e :: es) := by
  obtain ⟨ts, e', hts, he, heq⟩ := he
  obtain ⟨us, es', hus, hes, heqs⟩ := hes
  cases hes with
  | noArgs => exact ⟨ts, [e'], hts, .one he, congrArg₂ List.cons heq heqs⟩
  | args hes =>
    refine ⟨ts ++ TokenKind.comma.token :: us, _, ?_, .more he rfl hes, congrArg₂ List.cons heq heqs⟩
    simp only [List.forall_mem_append, List.forall_mem_cons]
    exact ⟨hts, isSpelled_token rfl, hus⟩

/-- an operand, in parentheses when it binds less tightly than the level of its place -/
theorem ReadableExpr.operand {e : Expr} (h : ReadableExpr (.expr e.level) e.grouped) {l : Level} (hl : l ≠ .primary) :
    ReadableExpr (.expr l) (Expr.enclosed (e.strength < l.strength) e.grouped) := by
  by_cases hlt : e.strength < l.strength
  · have hloose : ReadableExpr (.expr .comparison) e.grouped := h.loosen (Nat.zero_le _)
    have hprimary : l.rank ≤ Level.primary.rank := by cases l <;> decide
    simpa [Expr.enclosed, hlt] using (hloose.group .unknown).loosen hprimary
  · have hle : l.strength ≤ e.level.strength := by
      rw [e.strength_level]
      exact Nat.not_lt.1 hlt
    simpa [Expr.enclosed, hlt] using h.loosen (Level.rank_le hl hle)

mutual

/-- **Grouped expressions are readable**, at the level of their outermost construct. -/
theorem readable_expr : (e : Expr) → e.WellFormed → ReadableExpr (.expr e.level) e.grouped
  | .number _ value isInt spelling, h => by
    obtain ⟨hnumeral, rfl⟩ := h
    refine .leaf hnumeral.isSpelled (.number rfl) ?_
    simp only [Expr.unplaced, Expr.grouped, Token.numeral, Token.value, hnumeral.spellsInt]
  | .string _ value, _ =>
    .leaf (t := ⟨.stringLiteral, Text.literal value, .text value, .unknown⟩) .string (.string rfl) rfl
  | .ident _ name, h => .leaf (isSpelled_name h) (.ident rfl) rfl
  | .binary pos op left right, h => by
    obtain ⟨hop, hleft, hright⟩ := h
    obtain ⟨m, hnext, hm, hoperator⟩ := exists_operator hop
    obtain ⟨hl, hr⟩ := strength_operator hnext hoperator
    have hne : op.level ≠ .primary := by cases op <;> decide
    have ha := (readable_expr left hleft).operand hne
    have hb := (readable_expr right hright).operand hm
    rw [← hl] at ha
    rw [← hr] at hb
    exact .binary hnext hoperator ha hb pos
  | .range pos low high, h =>
    .range ((readable_expr low h.1).operand (l := .additive) (by decide))
      ((readable_expr high h.2).operand (l := .additive) (by decide)) pos
  | .call pos callee args, h =>
    .call ((readable_expr callee h.1).operand (l := .call) (by decide)) (readable_args args h.2) pos
  | .await pos inner, h => .await ((readable_expr inner h).operand (l := .call) (by decide)) pos
  | .group pos inner, h => .group ((readable_expr inner h).loosen (Nat.zero_le _)) pos

theorem readable_args : (es : List Expr) → Expr.AllWellFormed es → ReadableExpr .args (Expr.groupedAll es)
  | [], _ => ⟨[], [], List.forall_mem_nil _, .noArgs, rfl⟩
  | e :: rest, h => by
    have he : ReadableExpr (.expr .comparison) e.grouped := (readable_expr e h.1).loosen (Nat.zero_le _)
    obtain ⟨ts, es, hts, hes, heq⟩ := he.items (readable_args rest h.2)
    exact ⟨ts, es, hts, .args hes, heq⟩

end

end Expressions

/-! ## Parts of declarations -/

section Parts

/-- a word or name for a type as a token -/
theorem exists_typeToken {w : Bytes} (h : w.isTypeName = true) :
    ∃ t : Token, t.IsSpelled ∧ t.lexeme = w ∧ (t.kind.isTypeWord = true ∨ t.kind = .identifier) := by
  simp only [Bytes.isTypeName, Bool.or_eq_true, List.contains_iff_mem, List.mem_cons, List.not_mem_nil, or_false] at h
  rcases h with h | rfl | rfl | rfl
  · exact ⟨.name w, isSpelled_name h, rfl, .inr rfl⟩
  · exact ⟨TokenKind.intType.token, isSpelled_token rfl, rfl, .inl rfl⟩
  · exact ⟨TokenKind.floatType.token, isSpelled_token rfl, rfl, .inl rfl⟩
  · exact ⟨TokenKind.stringType.token, isSpelled_token rfl, rfl, .inl rfl⟩

theorem readable_ascription (sign : TokenKind) {w : Bytes} (hsign : sign.spelling? = some w) {type : Option TypeRef}
    (h : TypeRef.WellFormed type) : Readable (Ascription sign) (Option.map TypeRef.unplaced) type := by
  cases type with
  | none => exact ⟨[], none, List.forall_mem_nil _, .absent, rfl⟩
  | some r =>
    obtain ⟨t, ht, hlexeme, hkind⟩ := exists_typeToken (h r rfl)
    refine ⟨[sign.token, t], _, ?_, .present rfl hkind, ?_⟩
    · simp only [List.forall_mem_cons]
      exact ⟨isSpelled_token hsign, ht, List.forall_mem_nil _⟩
    · simp only [Option.map_some, TypeRef.unplaced, hlexeme]

theorem readable_param {p : Param} (h : p.WellFormed) : Readable DerivesParam Param.unplaced p := by
  obtain ⟨us, type, hus, htype, heq⟩ := readable_ascription .colon rfl h.2
  refine ⟨.name p.name :: us, _, ?_, .mk rfl htype, ?_⟩
  · rw [List.forall_mem_cons]
    exact ⟨isSpelled_name h.1, hus⟩
  · simp only [Param.unplaced, heq]
    rfl

theorem readable_params {ps : List Param} (h : ∀ p ∈ ps, p.WellFormed) :
    Readable (Listed DerivesParam) (List.map Param.unplaced) ps := by
  induction ps with
  | nil => exact ⟨[], [], List.forall_mem_nil _, .none, rfl⟩
  | cons p ps ih =>
    rw [List.forall_mem_cons] at h
    obtain ⟨ts, p', hts, hp, heq⟩ := readable_param h.1
    obtain ⟨us, ps', hus, hps, heqs⟩ := ih h.2
    cases hps with
    | none => exact ⟨ts, [p'], hts, .some (.one hp), congrArg₂ List.cons heq heqs⟩
    | some hps =>
      refine ⟨ts ++ TokenKind.comma.token :: us, _, ?_, .some (.more hp rfl hps), congrArg₂ List.cons heq heqs⟩
      simp only [List.forall_mem_append, List.forall_mem_cons]
      exact ⟨hts, isSpelled_token rfl, hus⟩

theorem exists_mark (word : TokenKind) {w : Bytes} (hword : word.spelling? = some w) (there : Bool) :
    ∃ ts, (∀ t ∈ ts, t.IsSpelled) ∧ Mark word ts there := by
  cases there with
  | false => exact ⟨[], List.forall_mem_nil _, .absent⟩
  | true => exact ⟨[word.token], List.forall_mem_singleton.2 (isSpelled_token hword), .present rfl⟩

end Parts

/-! ## Statements -/

section Statements

/-- an expression that stands alone -/
theorem readable_whole {e : Expr} (h : e.WellFormed) : ReadableExpr (.expr .comparison) e.grouped :=
  (readable_expr e h).loosen (Nat.zero_le _)

theorem ReadableStmt.block {ss : List Stmt} (h : ReadableStmt .stmts ss) (p : Pos) : ReadableStmt .block (p, ss) := by
  obtain ⟨ts, ss', hts, hss, heq⟩ := h
  refine ⟨TokenKind.leftBrace.token :: (ts ++ [TokenKind.rightBrace.token]), _, ?_, .braces rfl hss rfl, ?_⟩
  · simp only [List.forall_mem_append, List.forall_mem_cons]
    exact ⟨isSpelled_token rfl, hts, isSpelled_token rfl, List.forall_mem_nil _⟩
  · exact congrArg (Prod.mk Pos.unknown) heq

theorem ReadableStmt.cons {s : Stmt} {ss : List Stmt} (hs : ReadableStmt .stmt s) (hss : ReadableStmt .stmts ss) :
    ReadableStmt .stmts (s :: ss) := by
  obtain ⟨ts, s', hts, hs, heq⟩ := hs
  obtain ⟨us, ss', hus, hss, heqs⟩ := hss
  refine ⟨ts ++ us, _, ?_, .cons hs hss, congrArg₂ List.cons heq heqs⟩
  rw [List.forall_mem_append]
  exact ⟨hts, hus⟩

theorem ReadableStmt.letDecl {name : Bytes} (hname : name.isName = true) {type : Option TypeRef}
    (htype : TypeRef.WellFormed type) {init : Expr} (hinit : ReadableExpr (.expr .comparison) init) (p : Pos) :
    ReadableStmt .stmt (.letDecl p name type init) := by
  obtain ⟨us, type', hus, htype, heqt⟩ := readable_ascription .colon rfl htype
  obtain ⟨vs, init', hvs, hinit, heqi⟩ := hinit
  refine ⟨TokenKind.letWord.token :: .name name :: (us ++ TokenKind.equals.token ::
    (vs ++ [TokenKind.semicolon.token])), _, ?_, .letDecl rfl rfl htype rfl hinit rfl, ?_⟩
  · simp only [List.forall_mem_append, List.forall_mem_cons]
    exact ⟨isSpelled_token rfl, isSpelled_name hname, hus, isSpelled_token rfl, hvs, isSpelled_token rfl,
      List.forall_mem_nil _⟩
  · exact congrArg₂ (Stmt.letDecl .unknown name) heqt heqi

theorem ReadableStmt.assign {name : Bytes} (hname : name.isName = true) {x : Expr}
    (hx : ReadableExpr (.expr .comparison) x) (p : Pos) : ReadableStmt .stmt (.assign p name x) := by
  obtain ⟨vs, x', hvs, hx, heq⟩ := hx
  refine ⟨.name name :: TokenKind.equals.token :: (vs ++ [TokenKind.semicolon.token]), _, ?_,
    .assign rfl rfl hx rfl, congrArg (Stmt.assign .unknown name) heq⟩
  simp only [List.forall_mem_append, List.forall_mem_cons]
  exact ⟨isSpelled_name hname, isSpelled_token rfl, hvs, isSpelled_token rfl, List.forall_mem_nil _⟩

theorem ReadableStmt.expr {x : Expr} (hx : ReadableExpr (.expr .comparison) x) (p : Pos) :
    ReadableStmt .stmt (.expr p x) := by
  obtain ⟨vs, x', hvs, hx, heq⟩ := hx
  refine ⟨vs ++ [TokenKind.semicolon.token], _, ?_, .expr hx rfl, congrArg (Stmt.expr .unknown) heq⟩
  simp only [List.forall_mem_append, List.forall_mem_cons]
  exact ⟨hvs, isSpelled_token rfl, List.forall_mem_nil _⟩

theorem ReadableStmt.retNone (p : Pos) : ReadableStmt .stmt (.ret p none) := by
  refine ⟨[TokenKind.returnWord.token, TokenKind.semicolon.token], _, ?_, .retNone rfl rfl, rfl⟩
  simp only [List.forall_mem_cons]
  exact ⟨isSpelled_token rfl, isSpelled_token rfl, List.forall_mem_nil _⟩

theorem ReadableStmt.retSome {x : Expr} (hx : ReadableExpr (.expr .comparison) x) (p : Pos) :
    ReadableStmt .stmt (.ret p (some x)) := by
  obtain ⟨vs, x', hvs, hx, heq⟩ := hx
  refine ⟨TokenKind.returnWord.token :: (vs ++ [TokenKind.semicolon.token]), _, ?_, .retSome rfl hx rfl,
    congrArg (fun x => Stmt.ret .unknown (some x)) heq⟩
  simp only [List.forall_mem_append, List.forall_mem_cons]
  exact ⟨isSpelled_token rfl, hvs, isSpelled_token rfl, List.forall_mem_nil _⟩

theorem ReadableStmt.fnDecl {sig : Signature} (hsig : sig.WellFormed) {body : List Stmt}
    (hbody : ReadableStmt .stmts body) (p q : Pos) : ReadableStmt .stmt (.fnDecl p sig q body) := by
  obtain ⟨hname, hparams, hresult⟩ := hsig
  obtain ⟨as, sas, has⟩ := exists_mark .asyncWord rfl sig.isAsync
  obtain ⟨gs, sgs, hgs⟩ := exists_mark .gpuWord rfl sig.isGpu
  obtain ⟨ps, params', sps, hps, heqp⟩ := readable_params hparams
  obtain ⟨rs, result', srs, hrs, heqr⟩ := readable_ascription .arrow rfl hresult
  obtain ⟨bs, ⟨q', body'⟩, sbs, hbs, heqb⟩ := hbody.block q
  refine ⟨as ++ (gs ++ TokenKind.fnWord.token :: .name sig.name :: TokenKind.leftParen.token ::
    (ps ++ TokenKind.rightParen.token :: (rs ++ bs))), _, ?_, .fnDecl has hgs rfl rfl rfl hps rfl hrs hbs, ?_⟩
  · simp only [List.forall_mem_append, List.forall_mem_cons]
    exact ⟨sas, sgs, isSpelled_token rfl, isSpelled_name hname, isSpelled_token rfl, sps, isSpelled_token rfl, srs, sbs⟩
  · simp only [Clause.unplaced, Prod.mk.injEq, true_and] at heqb
    simp only [Clause.unplaced, Stmt.unplaced, Signature.unplaced, heqp, heqr, heqb]
    rfl

theorem ReadableStmt.loop {var : Bytes} (hvar : var.isName = true) {bounds : Expr}
    (hbounds : ReadableExpr (.expr .comparison) bounds) {body : List Stmt} (hbody : ReadableStmt .stmts body)
    (p q : Pos) : ReadableStmt .stmt (.loop p var bounds q body) := by
  obtain ⟨vs, bounds', hvs, hbounds, heqx⟩ := hbounds
  obtain ⟨bs, ⟨q', body'⟩, sbs, hbs, heqb⟩ := hbody.block q
  refine ⟨TokenKind.forWord.token :: .name var :: TokenKind.inWord.token :: (vs ++ bs), _, ?_,
    .loop rfl rfl rfl hbounds hbs, ?_⟩
  · simp only [List.forall_mem_append, List.forall_mem_cons]
    exact ⟨isSpelled_token rfl, isSpelled_name hvar, isSpelled_token rfl, hvs, sbs⟩
  · simp only [Clause.unplaced, Prod.mk.injEq, true_and] at heqb
    exact congrArg₂ (fun x ss => Stmt.loop .unknown var x .unknown ss) heqx heqb

theorem ReadableStmt.cond {test : Expr} (htest : ReadableExpr (.expr .comparison) test) {thenBody : List Stmt}
    (hbody : ReadableStmt .stmts thenBody) {other : Option Stmt} (hother : ReadableStmt .otherwise other) (p q : Pos) :
    ReadableStmt .stmt (.cond p test q thenBody other) := by
  obtain ⟨vs, test', hvs, htest, heqt⟩ := htest
  obtain ⟨bs, ⟨q', body'⟩, sbs, hbs, heqb⟩ := hbody.block q
  obtain ⟨os, other', sos, hos, heqo⟩ := hother
  refine ⟨TokenKind.ifWord.token :: TokenKind.leftParen.token :: (vs ++ TokenKind.rightParen.token :: (bs ++ os)), _, ?_,
    .cond rfl rfl htest rfl hbs hos, ?_⟩
  · simp only [List.forall_mem_append, List.forall_mem_cons]
    exact ⟨isSpelled_token rfl, isSpelled_token rfl, hvs, isSpelled_token rfl, sbs, sos⟩
  · simp only [Phrase.unplaced] at heqt
    simp only [Clause.unplaced, Prod.mk.injEq, true_and] at heqb heqo
    simp only [Clause.unplaced, Stmt.unplaced, heqt, heqb, heqo]

/-- a choice is derived from tokens that start with `if` -/
theorem cond_head {ts : List Token} {p q : Pos} {test : Expr} {thenBody : List Stmt} {other : Option Stmt}
    (h : DerivesStmt .stmt ts (.cond p test q thenBody other)) :
    ∃ first us, ts = first :: us ∧ first.kind = .ifWord := by
  cases h with
  | cond hword => exact ⟨_, _, rfl, hword⟩

theorem ReadableStmt.elseIf {p q : Pos} {test : Expr} {thenBody : List Stmt} {other : Option Stmt}
    (h : ReadableStmt .stmt (.cond p test q thenBody other)) :
    ReadableStmt .otherwise (some (.cond p test q thenBody other)) := by
  obtain ⟨ts, s, hts, hs, heq⟩ := h
  obtain ⟨p', test', q', thenBody', other', rfl⟩ :
      ∃ p' test' q' thenBody' other', s = .cond p' test' q' thenBody' other' := by
    cases s with
    | cond => exact ⟨_, _, _, _, _, rfl⟩
    | letDecl | assign | fnDecl | loop | ret | expr | block => cases heq
  obtain ⟨first, us, rfl, hfirst⟩ := cond_head hs
  refine ⟨TokenKind.elseWord.token :: first :: us, _, ?_, .elseIf rfl hfirst hs, congrArg some heq⟩
  rw [List.forall_mem_cons]
  exact ⟨isSpelled_token rfl, hts⟩

theorem ReadableStmt.elseBlock {ss : List Stmt} (h : ReadableStmt .stmts ss) (p : Pos) :
    ReadableStmt .otherwise (some (.block p ss)) := by
  obtain ⟨bs, ⟨p', ss'⟩, sbs, hbs, heq⟩ := h.block p
  refine ⟨TokenKind.elseWord.token :: bs, _, ?_, .elseBlock rfl hbs, ?_⟩
  · rw [List.forall_mem_cons]
    exact ⟨isSpelled_token rfl, sbs⟩
  · simp only [Clause.unplaced, Prod.mk.injEq, true_and] at heq
    exact congrArg (fun ss => some (Stmt.block .unknown ss)) heq

mutual

/-- **Grouped statements are readable.** -/
theorem readable_stmt : (s : Stmt) → s.WellFormed → ReadableStmt .stmt s.grouped
  | .letDecl pos _ _ _, h => .letDecl h.1 h.2.1 (readable_whole h.2.2) pos
  | .assign pos _ _, h => .assign h.1 (readable_whole h.2) pos
  | .fnDecl pos _ bodyPos body, h => .fnDecl h.1 (readable_stmts body h.2) pos bodyPos
  | .cond pos _ thenPos thenBody otherwise, h =>
    .cond (readable_whole h.1) (readable_stmts thenBody h.2.1) (readable_else otherwise h.2.2) pos thenPos
  | .loop pos _ _ bodyPos body, h => .loop h.1 (readable_whole h.2.1) (readable_stmts body h.2.2) pos bodyPos
  | .ret pos none, _ => .retNone pos
  | .ret pos (some x), h => .retSome (readable_whole (h x rfl)) pos
  | .expr pos _, h => .expr (readable_whole h) pos
  | .block pos stmts, h => by
    obtain ⟨ts, ⟨pos', stmts'⟩, hts, hstmts, heq⟩ := (readable_stmts stmts h).block pos
    simp only [Clause.unplaced, Prod.mk.injEq, true_and] at heq
    exact ⟨ts, _, hts, .block hstmts, congrArg (Stmt.block .unknown) heq⟩

theorem readable_stmts : (ss : List Stmt) → Stmt.AllWellFormed ss → ReadableStmt .stmts (Stmt.groupedAll ss)
  | [], _ => ⟨[], [], List.forall_mem_nil _, .nil, rfl⟩
  | s :: rest, h => .cons (readable_stmt s h.1) (readable_stmts rest h.2)

theorem readable_else : (o : Option Stmt) → Stmt.ElseWellFormed o → ReadableStmt .otherwise (Stmt.groupedElse o)
  | none, _ => ⟨[], none, List.forall_mem_nil _, .noElse, rfl⟩
  | some (.cond pos _ thenPos thenBody otherwise), h =>
    .elseIf (.cond (readable_whole h.1) (readable_stmts thenBody h.2.1) (readable_else otherwise h.2.2) pos thenPos)
  | some (.block pos stmts), h => .elseBlock (readable_stmts stmts h) pos

end

end Statements

/-! ## Programs -/

namespace Program

/-- **Built by hand.** The text of any program that can be written is read without a fault, as the same program up to
places and parentheses. -/
theorem ofSource_render (p : Program) (h : Stmt.AllWellFormed p.stmts) :
    (ofSource p.render).errors = [] ∧
      Stmt.forgetAll .grouping (ofSource p.render).stmts = Stmt.forgetAll .grouping p.stmts := by
  obtain ⟨ts, stmts, hts, hderives, heq⟩ := readable_stmts p.stmts h
  have heq' : Stmt.unplacedAll stmts = Stmt.unplacedAll (Stmt.groupedAll p.stmts) := heq
  have htext : Stmt.renderAll 0 stmts = p.render :=
    calc Stmt.renderAll 0 stmts
        = Stmt.renderAll 0 (Stmt.unplacedAll stmts) := (Stmt.renderAll_unplaced 0 stmts).symm
      _ = Stmt.renderAll 0 (Stmt.unplacedAll (Stmt.groupedAll p.stmts)) := by rw [heq']
      _ = Stmt.renderAll 0 (Stmt.groupedAll p.stmts) := Stmt.renderAll_unplaced 0 _
      _ = p.render := Stmt.renderAll_grouped 0 p.stmts
  obtain ⟨stmts', hread, hsame⟩ := ofSource_renderAll hderives hts
  rw [htext] at hread
  rw [hread]
  refine ⟨rfl, ?_⟩
  calc Stmt.forgetAll .grouping stmts'
      = Stmt.forgetAll .grouping (Stmt.unplacedAll stmts') := (Stmt.forgetAll_unplaced _ _).symm
    _ = Stmt.forgetAll .grouping (Stmt.unplacedAll (Stmt.groupedAll p.stmts)) := by rw [hsame, heq']
    _ = Stmt.forgetAll .grouping (Stmt.groupedAll p.stmts) := Stmt.forgetAll_unplaced _ _
    _ = Stmt.forgetAll .grouping p.stmts := Stmt.forgetAll_grouped p.stmts

/-- a comparison and a range as factors, a range in a range, and an `await` of an `await` -/
def builtByHand : Program :=
  let x := Expr.ident .unknown (text "x")
  let two := Expr.number .unknown (readNumeral (text "2")) true (text "2")
  let half := Expr.number .unknown (readNumeral (text "0.5")) false (text "0.5")
  let call := Expr.call .unknown x [.string .unknown [Bytes.quote]]
  let product := Expr.binary .unknown .mul (.binary .unknown .greater x two)
    (.range .unknown (.range .unknown two half) (.await .unknown (.await .unknown call)))
  ⟨[.letDecl .unknown (text "y") (some ⟨text "int", .unknown⟩) product], []⟩

theorem wellFormed_builtByHand : Stmt.AllWellFormed builtByHand.stmts := by
  have htwo : IsNumeral (text "2") true := .whole rfl
  have hhalf : IsNumeral (text "0.5") false := .decimal (w := text "0") (v := text "5") rfl rfl
  have hx : (text "x").isName = true := by decide
  have hy : (text "y").isName = true := by decide
  have hint : TypeRef.WellFormed (some ⟨text "int", .unknown⟩) := by
    rintro r ⟨⟩
    decide
  exact ⟨⟨hy, hint, nofun, ⟨nofun, hx, htwo, rfl⟩, ⟨⟨htwo, rfl⟩, hhalf, rfl⟩, hx, trivial, trivial⟩, trivial⟩

theorem ofSource_render_builtByHand : Stmt.AllWellFormed builtByHand.stmts ∧
    (ofSource builtByHand.render).errors = [] ∧
    Stmt.forgetAll .grouping (ofSource builtByHand.render).stmts = Stmt.forgetAll .grouping builtByHand.stmts :=
  ⟨wellFormed_builtByHand, ofSource_render builtByHand wellFormed_builtByHand⟩

example : builtByHand.render = text "let y: int = (x > 2) * ((2..0.5)..await (await x(\"\\\"\")));\n" := by decide +kernel

end Program

end Ouroboros
