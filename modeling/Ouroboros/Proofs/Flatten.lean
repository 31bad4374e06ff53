/-
Trees back to tokens.

`tokens` lists the tokens that a tree was read from, in their plain form: a tree keeps everything that its written form
shows except places and the way strings are written. `flatten_expr` and `flatten_stmt` say so of derivations: the tokens
of the tree are the plain forms of the tokens derived.
-/
import Ouroboros.Proofs.Lexemes

namespace Ouroboros

/-- a name as a token at no place -/
def Token.name (w : Bytes) : Token := ⟨.identifier, w, .text w, .unknown⟩

/-- the kind of an operator's sign -/
def BinaryOp.kind : BinaryOp → TokenKind
  | .add => .plus
  | .sub => .minus
  | .mul => .star
  | .div => .slash
  | .greater => .greater
  | .unknown => .unknown 0

namespace Expr

mutual

/-- the tokens of an expression -/
def tokens : Expr → List Token
  | .number _ value _ spelling => [⟨.number, spelling, .number value, .unknown⟩]
  | .string _ value => [⟨.stringLiteral, Text.literal value, .text value, .unknown⟩]
  | .ident _ name => [.name name]
  | .binary _ op left right => left.tokens ++ op.kind.token :: right.tokens
  | .range _ low high => low.tokens ++ TokenKind.dots.token :: high.tokens
  | .call _ callee args =>
    callee.tokens ++ TokenKind.leftParen.token :: (tokensBetween args ++ [TokenKind.rightParen.token])
  | .await _ inner => TokenKind.awaitWord.token :: inner.tokens
  | .group _ inner => TokenKind.leftParen.token :: (inner.tokens ++ [TokenKind.rightParen.token])

/-- the tokens of expressions with commas between them -/
def tokensBetween : List Expr → List Token
  | [] => []
  | e :: rest =>
    match rest with
    | [] => e.tokens
    | _ :: _ => e.tokens ++ TokenKind.comma.token :: tokensBetween rest

end

end Expr

/-- the token of a type's name -/
def TypeRef.token (r : TypeRef) : Token :=
  if TokenKind.ofWord r.name = .identifier then .name r.name else (TokenKind.ofWord r.name).token

/-- the tokens of a type behind its sign -/
def TypeRef.tokensAfter (sign : TokenKind) : Option TypeRef → List Token
  | none => []
  | some r => [sign.token, r.token]

/-- the tokens of a parameter -/
def Param.tokens (p : Param) : List Token := .name p.name :: TypeRef.tokensAfter .colon p.type

/-- the tokens of parameters with commas between them -/
def Param.tokensBetween : List Param → List Token
  | [] => []
  | [p] => p.tokens
  | p :: rest => p.tokens ++ TokenKind.comma.token :: tokensBetween rest

/-- the token of a word that may be missing -/
def Token.mark (word : TokenKind) (there : Bool) : List Token := if there then [word.token] else []

/-- the tokens of a function up to its body -/
def Signature.tokens (s : Signature) : List Token :=
  Token.mark .asyncWord s.isAsync ++ (Token.mark .gpuWord s.isGpu ++ TokenKind.fnWord.token :: .name s.name ::
    TokenKind.leftParen.token :: (Param.tokensBetween s.params ++ TokenKind.rightParen.token ::
    TypeRef.tokensAfter .arrow s.result))

namespace Stmt

/-- the tokens of a block, given those of its statements -/
def braced (ts : List Token) : List Token := TokenKind.leftBrace.token :: (ts ++ [TokenKind.rightBrace.token])

mutual

/-- the tokens of a statement -/
def tokens : Stmt → List Token
  | .letDecl _ name type init => TokenKind.letWord.token :: .name name :: (TypeRef.tokensAfter .colon type ++
      TokenKind.equals.token :: (init.tokens ++ [TokenKind.semicolon.token]))
  | .assign _ name value =>
    .name name :: TokenKind.equals.token :: (value.tokens ++ [TokenKind.semicolon.token])
  | .fnDecl _ sig _ body => sig.tokens ++ braced (tokensAll body)
  | .cond _ test _ thenBody otherwise => TokenKind.ifWord.token :: TokenKind.leftParen.token :: (test.tokens ++
      TokenKind.rightParen.token :: (braced (tokensAll thenBody) ++ tokensElse otherwise))
  | .loop _ var bounds _ body => TokenKind.forWord.token :: .name var :: TokenKind.inWord.token ::
      (bounds.tokens ++ braced (tokensAll body))
  | .ret _ none => [TokenKind.returnWord.token, TokenKind.semicolon.token]
  | .ret _ (some value) => TokenKind.returnWord.token :: (value.tokens ++ [TokenKind.semicolon.token])
  | .expr _ x => x.tokens ++ [TokenKind.semicolon.token]
  | .block _ stmts => braced (tokensAll stmts)

/-- the tokens of statements below each other -/
def tokensAll : List Stmt → List Token
  | [] => []
  | s :: rest => s.tokens ++ tokensAll rest

/-- the tokens of the end of a choice -/
def tokensElse : Option Stmt → List Token
  | none => []
  | some s => TokenKind.elseWord.token :: s.tokens

end

end Stmt

namespace Grammar

/-! ## Tokens of derived trees -/

/-- the tokens of a tree of a sort -/
def Phrase.tokens : (s : Phrase) → s.Tree → List Token
  | .expr _, e => Expr.tokens e
  | .items, es | .args, es => Expr.tokensBetween es

/-- the tokens of a tree of a sort -/
def Clause.tokens : (s : Clause) → s.Tree → List Token
  | .stmt, s => Stmt.tokens s
  | .stmts, ss => Stmt.tokensAll ss
  | .block, b => Stmt.braced (Stmt.tokensAll b.2)
  | .otherwise, other => Stmt.tokensElse other

section Tokens

variable {ts us : List Token} {t : Token}

theorem plain_eq {k : TokenKind} (h : t.IsSpelled) (hk : t.kind = k) {w : Bytes} (hw : k.spelling? = some w) :
    t.plain = k.token := by
  subst hk
  exact Token.plain_of_fixed h hw

theorem plain_name (h : t.IsSpelled) (hk : t.kind = .identifier) : t.plain = .name t.lexeme := by
  have hl := Token.literal_of_identifier h hk
  simp [Token.plain, Token.name, hk, hl]

theorem Operator.kind_eq {l : Level} {k : TokenKind} {op : BinaryOp} (h : Operator l k op) : op.kind = k := by
  cases h <;> rfl

theorem Operator.spelling {l : Level} {k : TokenKind} {op : BinaryOp} (h : Operator l k op) :
    ∃ w, k.spelling? = some w := by
  cases h <;> exact ⟨_, rfl⟩

/-- a list of expressions is not empty where items are derived -/
theorem items_ne_nil {es : List Expr} (h : DerivesExpr .items ts es) : es ≠ [] := by
  cases h <;> simp

/-- **Expressions keep their tokens.** -/
theorem flatten_expr {s : Phrase} {x : s.Tree} (h : DerivesExpr s ts x) (hts : ∀ t ∈ ts, t.IsSpelled) :
    s.tokens x = ts.map Token.plain := by
  induction h with
  | tighter _ _ ih => exact ih hts
  | binary _ _ ht _ iha ihb =>
    simp only [List.forall_mem_append, List.forall_mem_cons] at hts
    obtain ⟨w, hw⟩ := ht.spelling
    rw [Phrase.tokens, Expr.tokens, List.map_append, List.map_cons, ht.kind_eq, plain_eq hts.2.1 rfl hw,
      ← iha hts.1, ← ihb hts.2.2]
    rfl
  | range _ ht _ iha ihb =>
    simp only [List.forall_mem_append, List.forall_mem_cons] at hts
    rw [Phrase.tokens, Expr.tokens, List.map_append, List.map_cons, plain_eq hts.2.1 ht rfl, ← iha hts.1,
      ← ihb hts.2.2]
    rfl
  | await ht _ ih =>
    simp only [List.forall_mem_cons] at hts
    rw [Phrase.tokens, Expr.tokens, List.map_cons, plain_eq hts.1 ht rfl, ← ih hts.2]
    rfl
  | call _ ht _ hu ihf ihes =>
    simp only [List.forall_mem_append, List.forall_mem_cons] at hts
    rw [Phrase.tokens, Expr.tokens, List.map_append, List.map_cons, List.map_append, List.map_singleton,
      plain_eq hts.2.1 ht rfl, plain_eq hts.2.2.2.1 hu rfl, ← ihf hts.1, ← ihes hts.2.2.1]
    rfl
  | number ht =>
    have hl := Token.literal_of_number (List.forall_mem_singleton.1 hts) ht
    simp [Phrase.tokens, Expr.tokens, Token.plain, ht, hl]
  | string ht =>
    have hl := Token.literal_of_string (List.forall_mem_singleton.1 hts) ht
    simp [Phrase.tokens, Expr.tokens, Token.plain, ht, hl]
  | ident ht =>
    rw [Phrase.tokens, Expr.tokens, List.map_singleton, plain_name (List.forall_mem_singleton.1 hts) ht]
  | group ht _ hu ih =>
    simp only [List.forall_mem_append, List.forall_mem_cons] at hts
    rw [Phrase.tokens, Expr.tokens, List.map_cons, List.map_append, List.map_singleton, plain_eq hts.1 ht rfl,
      plain_eq hts.2.2.1 hu rfl, ← ih hts.2.1]
    rfl
  | one _ ih => exact ih hts
  | @more ts us t e es h ht hes ih ihes =>
    simp only [List.forall_mem_append, List.forall_mem_cons] at hts
    rw [List.map_append, List.map_cons, plain_eq hts.2.1 ht rfl, ← ih hts.1, ← ihes hts.2.2]
    cases es with
    | nil => exact absurd rfl (items_ne_nil hes)
    | cons e' es => rfl
  | noArgs => rfl
  | args _ ih => exact ih hts

theorem flatten_mark {word : TokenKind} {w : Bytes} (hw : word.spelling? = some w) {b : Bool} (h : Mark word ts b)
    (hts : ∀ t ∈ ts, t.IsSpelled) : Token.mark word b = ts.map Token.plain := by
  cases h with
  | absent => rfl
  | present ht => rw [List.map_singleton, plain_eq (List.forall_mem_singleton.1 hts) ht hw]; rfl

/-- the kind of a word for a type can be read off the word -/
theorem ofWord_typeWord {k : TokenKind} {w : Bytes} (hk : k.isTypeWord = true) (hw : k.spelling? = some w) :
    TokenKind.ofWord w = k := by
  cases k <;> first
    | exact absurd hk Bool.false_ne_true
    | (rw [← Option.some.inj hw]
       decide)

/-- a type is a word for one, or a name -/
theorem plain_typeRef (h : t.IsSpelled) (hk : t.kind.isTypeWord = true ∨ t.kind = .identifier) :
    (⟨t.lexeme, t.pos⟩ : TypeRef).token = t.plain := by
  obtain ⟨k, lexeme, literal, pos⟩ := t
  simp only [Token.IsSpelled] at h hk
  rcases hk with hk | rfl
  · cases h with
    | fixed hw =>
      have hne : k ≠ .identifier := by
        rintro rfl
        exact absurd hk (by decide)
      rw [plain_eq (t := ⟨k, lexeme, .none, pos⟩) (.fixed hw) rfl hw, TypeRef.token, ofWord_typeWord hk hw, if_neg hne]
    | name | whole | decimal | string => exact absurd hk (by decide)
  · rw [plain_name (t := ⟨.identifier, lexeme, literal, pos⟩) h rfl]
    cases h with
    | fixed hw => cases hw
    | name _ _ hw => rw [TypeRef.token, if_pos hw]

theorem flatten_ascription {sign : TokenKind} {w : Bytes} (hw : sign.spelling? = some w) {type : Option TypeRef}
    (h : Ascription sign ts type) (hts : ∀ t ∈ ts, t.IsSpelled) :
    TypeRef.tokensAfter sign type = ts.map Token.plain := by
  cases h with
  | absent => rfl
  | present ht hu =>
    simp only [List.forall_mem_cons] at hts
    rw [List.map_cons, List.map_singleton, plain_eq hts.1 ht hw, ← plain_typeRef hts.2.1 hu]
    rfl

theorem flatten_param {p : Param} (h : DerivesParam ts p) (hts : ∀ t ∈ ts, t.IsSpelled) :
    p.tokens = ts.map Token.plain := by
  cases h with
  | mk ht hus =>
    simp only [List.forall_mem_cons] at hts
    rw [List.map_cons, plain_name hts.1 ht, ← flatten_ascription rfl hus hts.2]
    rfl

theorem flatten_params {ps : List Param} (h : Listed DerivesParam ts ps) (hts : ∀ t ∈ ts, t.IsSpelled) :
    Param.tokensBetween ps = ts.map Token.plain := by
  cases h with
  | none => rfl
  | some h =>
    induction h with
    | one h => exact flatten_param h hts
    | @more ts us t p ps h ht hps ih =>
      simp only [List.forall_mem_append, List.forall_mem_cons] at hts
      rw [List.map_append, List.map_cons, plain_eq hts.2.1 ht rfl, ← flatten_param h hts.1, ← ih hts.2.2]
      cases hps <;> rfl

/-- **Statements keep their tokens.** -/
theorem flatten_stmt {s : Clause} {x : s.Tree} (h : DerivesStmt s ts x) (hts : ∀ t ∈ ts, t.IsSpelled) :
    s.tokens x = ts.map Token.plain := by
  induction h with
  | letDecl hword hname htype hsign hinit hsemi =>
    simp only [List.forall_mem_append, List.forall_mem_cons] at hts
    obtain ⟨sword, sname, stype, ssign, sinit, ssemi, -⟩ := hts
    simp only [List.map_append, List.map_cons, List.map_nil, plain_eq sword hword rfl, plain_name sname hname,
      ← flatten_ascription rfl htype stype, plain_eq ssign hsign rfl, ← flatten_expr hinit sinit,
      plain_eq ssemi hsemi rfl]
    rfl
  | assign hname hsign hx hsemi =>
    simp only [List.forall_mem_append, List.forall_mem_cons] at hts
    obtain ⟨sname, ssign, sx, ssemi, -⟩ := hts
    simp only [List.map_append, List.map_cons, List.map_nil, plain_name sname hname, plain_eq ssign hsign rfl,
      ← flatten_expr hx sx, plain_eq ssemi hsemi rfl]
    rfl
  | fnDecl has hgs hword hname hleft hps hright hrs _ ih =>
    simp only [List.forall_mem_append, List.forall_mem_cons] at hts
    obtain ⟨sas, sgs, sword, sname, sleft, sps, sright, srs, sbs⟩ := hts
    simp only [List.map_append, List.map_cons, ← flatten_mark rfl has sas, ← flatten_mark rfl hgs sgs,
      plain_eq sword hword rfl, plain_name sname hname, plain_eq sleft hleft rfl, ← flatten_params hps sps,
      plain_eq sright hright rfl, ← flatten_ascription rfl hrs srs, ← ih sbs]
    simp only [Clause.tokens, Stmt.tokens, Signature.tokens, List.append_assoc, List.cons_append]
  | cond hword hleft htest hright _ _ ihbs ihos =>
    simp only [List.forall_mem_append, List.forall_mem_cons] at hts
    obtain ⟨sword, sleft, stest, sright, sbs, sos⟩ := hts
    simp only [List.map_append, List.map_cons, plain_eq sword hword rfl, plain_eq sleft hleft rfl,
      ← flatten_expr htest stest, plain_eq sright hright rfl, ← ihbs sbs, ← ihos sos]
    rfl
  | loop hword hvar hin hbounds _ ih =>
    simp only [List.forall_mem_append, List.forall_mem_cons] at hts
    obtain ⟨sword, svar, sin, sbounds, sbs⟩ := hts
    simp only [List.map_append, List.map_cons, plain_eq sword hword rfl, plain_name svar hvar, plain_eq sin hin rfl,
      ← flatten_expr hbounds sbounds, ← ih sbs]
    rfl
  | retNone hword hsemi =>
    simp only [List.forall_mem_cons] at hts
    simp only [List.map_cons, List.map_nil, plain_eq hts.1 hword rfl, plain_eq hts.2.1 hsemi rfl]
    rfl
  | retSome hword hx hsemi =>
    simp only [List.forall_mem_append, List.forall_mem_cons] at hts
    obtain ⟨sword, sx, ssemi, -⟩ := hts
    simp only [List.map_append, List.map_cons, List.map_nil, plain_eq sword hword rfl, ← flatten_expr hx sx,
      plain_eq ssemi hsemi rfl]
    rfl
  | expr hx hsemi =>
    simp only [List.forall_mem_append, List.forall_mem_cons] at hts
    simp only [List.map_append, List.map_cons, List.map_nil, ← flatten_expr hx hts.1, plain_eq hts.2.1 hsemi rfl]
    rfl
  | block _ ih => exact ih hts
  | nil => rfl
  | cons _ _ ih ihss =>
    simp only [List.forall_mem_append] at hts
    rw [List.map_append, ← ih hts.1, ← ihss hts.2]
    rfl
  | braces hleft _ hright ih =>
    simp only [List.forall_mem_append, List.forall_mem_cons] at hts
    obtain ⟨sleft, sss, sright, -⟩ := hts
    simp only [List.map_append, List.map_cons, List.map_nil, plain_eq sleft hleft rfl, ← ih sss,
      plain_eq sright hright rfl]
    rfl
  | noElse => rfl
  | elseIf hword _ _ ih | elseBlock hword _ ih =>
    rw [List.forall_mem_cons] at hts
    rw [List.map_cons, plain_eq hts.1 hword rfl, ← ih hts.2]
    rfl

end Tokens

end Grammar

end Ouroboros
