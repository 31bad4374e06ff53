/-
The grammar of programs as a relation between token sequences and trees, stated without the reader of programs.

`DerivesExpr` has one rule for each way to build an expression. Its sorts are the levels of expressions, loosest first,
and lists of expressions between commas. A chain of operators of one level groups to the left: its left operand is of
the level itself, its right operand of the next tighter one. A range joins two sums and cannot be continued.
`DerivesStmt` has one rule for each form of statement, and rules for statement lists, blocks and the part behind a
choice's first block. Both give the tree with its places: those of operators, opening parentheses and first words.

The first tokens of phrases are all that a reader can look at before it decides: `DerivesExpr.head`,
`DerivesStmt.head`.
-/
import Ouroboros.Program.Parse

namespace Ouroboros

namespace Token

/-- the value of a numeral -/
def value (t : Token) : Float :=
  match t.literal with
  | .number v => v
  | _ => 0.0

/-- the text of a string literal -/
def payload (t : Token) : Bytes :=
  match t.literal with
  | .text s => s
  | _ => []

/-- the place of the first of some tokens -/
def placeOf (ts : List Token) : Pos := (ts.head?.map Token.pos).getD .unknown

end Token

namespace Grammar

open Token (placeOf)

/-! ## Expressions -/

/-- the levels of expressions, loosest first -/
inductive Level where
  | comparison
  | range
  | additive
  | multiplicative
  | unary
  | call
  | primary
deriving DecidableEq, Repr

/-- the next tighter level -/
def Level.next? : Level → Option Level
  | .comparison => some .range
  | .range => some .additive
  | .additive => some .multiplicative
  | .multiplicative => some .unary
  | .unary => some .call
  | .call => some .primary
  | .primary => none

/-- the operators of a level, by the kinds of their signs -/
inductive Operator : Level → TokenKind → BinaryOp → Prop where
  | greater : Operator .comparison .greater .greater
  | plus : Operator .additive .plus .add
  | minus : Operator .additive .minus .sub
  | star : Operator .multiplicative .star .mul
  | slash : Operator .multiplicative .slash .div

/-- the sorts of phrases in expressions -/
inductive Phrase where
  | expr (l : Level)
  /-- expressions with commas between them, at least one -/
  | items
  /-- what stands between the parentheses of a call -/
  | args
deriving DecidableEq, Repr

/-- the trees of a sort -/
@[reducible]
def Phrase.Tree : Phrase → Type
  | .expr _ => Expr
  | .items | .args => List Expr

/-- the tokens are a phrase of the sort, and this is its tree -/
inductive DerivesExpr : (s : Phrase) → List Token → s.Tree → Prop where
  | tighter {l m : Level} {ts : List Token} {e : Expr} (hl : l.next? = some m) (h : DerivesExpr (.expr m) ts e) :
    DerivesExpr (.expr l) ts e
  | binary {l m : Level} {ts us : List Token} {t : Token} {op : BinaryOp} {a b : Expr} (hl : l.next? = some m)
    (ha : DerivesExpr (.expr l) ts a) (ht : Operator l t.kind op) (hb : DerivesExpr (.expr m) us b) :
    DerivesExpr (.expr l) (ts ++ t :: us) (.binary t.pos op a b)
  | range {ts us : List Token} {t : Token} {a b : Expr} (ha : DerivesExpr (.expr .additive) ts a)
    (ht : t.kind = .dots) (hb : DerivesExpr (.expr .additive) us b) :
    DerivesExpr (.expr .range) (ts ++ t :: us) (.range t.pos a b)
  | await {ts : List Token} {t : Token} {e : Expr} (ht : t.kind = .awaitWord) (h : DerivesExpr (.expr .call) ts e) :
    DerivesExpr (.expr .unary) (t :: ts) (.await t.pos e)
  | call {ts us : List Token} {t u : Token} {f : Expr} {es : List Expr} (hf : DerivesExpr (.expr .call) ts f)
    (ht : t.kind = .leftParen) (hes : DerivesExpr .args us es) (hu : u.kind = .rightParen) :
    DerivesExpr (.expr .call) (ts ++ t :: (us ++ [u])) (.call t.pos f es)
  | number {t : Token} (ht : t.kind = .number) :
    DerivesExpr (.expr .primary) [t] (.number t.pos t.value (Parse.spellsInt t.lexeme) t.lexeme)
  | string {t : Token} (ht : t.kind = .stringLiteral) : DerivesExpr (.expr .primary) [t] (.string t.pos t.payload)
  | ident {t : Token} (ht : t.kind = .identifier) : DerivesExpr (.expr .primary) [t] (.ident t.pos t.lexeme)
  | group {ts : List Token} {t u : Token} {e : Expr} (ht : t.kind = .leftParen)
    (h : DerivesExpr (.expr .comparison) ts e) (hu : u.kind = .rightParen) :
    DerivesExpr (.expr .primary) (t :: (ts ++ [u])) (.group t.pos e)
  | one {ts : List Token} {e : Expr} (h : DerivesExpr (.expr .comparison) ts e) : DerivesExpr .items ts [e]
  | more {ts us : List Token} {t : Token} {e : Expr} {es : List Expr} (h : DerivesExpr (.expr .comparison) ts e)
    (ht : t.kind = .comma) (hes : DerivesExpr .items us es) : DerivesExpr .items (ts ++ t :: us) (e :: es)
  | noArgs : DerivesExpr .args [] []
  | args {ts : List Token} {es : List Expr} (h : DerivesExpr .items ts es) : DerivesExpr .args ts es

/-! ## Parts of declarations -/

/-- a word that may be missing -/
inductive Mark (word : TokenKind) : List Token → Bool → Prop where
  | absent : Mark word [] false
  | present {t : Token} (ht : t.kind = word) : Mark word [t] true

/-- a type behind a sign, or nothing -/
inductive Ascription (sign : TokenKind) : List Token → Option TypeRef → Prop where
  | absent : Ascription sign [] none
  | present {t u : Token} (ht : t.kind = sign) (hu : u.kind.isTypeWord = true ∨ u.kind = .identifier) :
    Ascription sign [t, u] (some ⟨u.lexeme, u.pos⟩)

/-- a parameter of a function -/
inductive DerivesParam : List Token → Param → Prop where
  | mk {t : Token} {us : List Token} {type : Option TypeRef} (ht : t.kind = .identifier)
    (hus : Ascription .colon us type) : DerivesParam (t :: us) ⟨t.lexeme, type, t.pos⟩

/-- items with commas between them, at least one -/
inductive Separated {α : Type} (item : List Token → α → Prop) : List Token → List α → Prop where
  | one {ts : List Token} {a : α} (h : item ts a) : Separated item ts [a]
  | more {ts us : List Token} {t : Token} {a : α} {as : List α} (h : item ts a) (ht : t.kind = .comma)
    (has : Separated item us as) : Separated item (ts ++ t :: us) (a :: as)

/-- items with commas between them, possibly none -/
inductive Listed {α : Type} (item : List Token → α → Prop) : List Token → List α → Prop where
  | none : Listed item [] []
  | some {ts : List Token} {as : List α} (h : Separated item ts as) : Listed item ts as

/-! ## Statements -/

/-- the sorts of phrases in programs -/
inductive Clause where
  | stmt
  /-- statements below each other -/
  | stmts
  /-- statements between braces -/
  | block
  /-- what follows the first block of a choice -/
  | otherwise
deriving DecidableEq, Repr

/-- the trees of a sort -/
@[reducible]
def Clause.Tree : Clause → Type
  | .stmt => Stmt
  | .stmts => List Stmt
  | .block => Pos × List Stmt
  | .otherwise => Option Stmt

/-- the tokens are a phrase of the sort, and this is its tree -/
inductive DerivesStmt : (s : Clause) → List Token → s.Tree → Prop where
  | letDecl {word name sign semi : Token} {us vs : List Token} {type : Option TypeRef} {init : Expr}
    (hword : word.kind = .letWord) (hname : name.kind = .identifier) (htype : Ascription .colon us type)
    (hsign : sign.kind = .equals) (hinit : DerivesExpr (.expr .comparison) vs init)
    (hsemi : semi.kind = .semicolon) :
    DerivesStmt .stmt (word :: name :: (us ++ sign :: (vs ++ [semi]))) (.letDecl word.pos name.lexeme type init)
  | assign {name sign semi : Token} {vs : List Token} {x : Expr} (hname : name.kind = .identifier)
    (hsign : sign.kind = .equals) (hx : DerivesExpr (.expr .comparison) vs x) (hsemi : semi.kind = .semicolon) :
    DerivesStmt .stmt (name :: sign :: (vs ++ [semi])) (.assign name.pos name.lexeme x)
  | fnDecl {word name left right : Token} {as gs ps rs bs : List Token} {isAsync isGpu : Bool} {params : List Param}
    {result : Option TypeRef} {bodyPos : Pos} {body : List Stmt} (has : Mark .asyncWord as isAsync)
    (hgs : Mark .gpuWord gs isGpu) (hword : word.kind = .fnWord) (hname : name.kind = .identifier)
    (hleft : left.kind = .leftParen) (hps : Listed DerivesParam ps params) (hright : right.kind = .rightParen)
    (hrs : Ascription .arrow rs result) (hbs : DerivesStmt .block bs (bodyPos, body)) :
    DerivesStmt .stmt (as ++ (gs ++ word :: name :: left :: (ps ++ right :: (rs ++ bs))))
      (.fnDecl (placeOf (as ++ (gs ++ [word]))) ⟨name.lexeme, params, result, isAsync, isGpu⟩ bodyPos body)
  | cond {word left right : Token} {vs bs os : List Token} {test : Expr} {thenPos : Pos} {thenBody : List Stmt}
    {other : Option Stmt} (hword : word.kind = .ifWord) (hleft : left.kind = .leftParen)
    (htest : DerivesExpr (.expr .comparison) vs test) (hright : right.kind = .rightParen)
    (hbs : DerivesStmt .block bs (thenPos, thenBody)) (hos : DerivesStmt .otherwise os other) :
    DerivesStmt .stmt (word :: left :: (vs ++ right :: (bs ++ os))) (.cond word.pos test thenPos thenBody other)
  | loop {word var inWord : Token} {vs bs : List Token} {bounds : Expr} {bodyPos : Pos} {body : List Stmt}
    (hword : word.kind = .forWord) (hvar : var.kind = .identifier) (hin : inWord.kind = .inWord)
    (hbounds : DerivesExpr (.expr .comparison) vs bounds) (hbs : DerivesStmt .block bs (bodyPos, body)) :
    DerivesStmt .stmt (word :: var :: inWord :: (vs ++ bs)) (.loop word.pos var.lexeme bounds bodyPos body)
  | retNone {word semi : Token} (hword : word.kind = .returnWord) (hsemi : semi.kind = .semicolon) :
    DerivesStmt .stmt [word, semi] (.ret word.pos none)
  | retSome {word semi : Token} {vs : List Token} {x : Expr} (hword : word.kind = .returnWord)
    (hx : DerivesExpr (.expr .comparison) vs x) (hsemi : semi.kind = .semicolon) :
    DerivesStmt .stmt (word :: (vs ++ [semi])) (.ret word.pos (some x))
  | expr {semi : Token} {vs : List Token} {x : Expr} (hx : DerivesExpr (.expr .comparison) vs x)
    (hsemi : semi.kind = .semicolon) : DerivesStmt .stmt (vs ++ [semi]) (.expr (placeOf vs) x)
  | block {ts : List Token} {pos : Pos} {stmts : List Stmt} (h : DerivesStmt .block ts (pos, stmts)) :
    DerivesStmt .stmt ts (.block pos stmts)
  | nil : DerivesStmt .stmts [] []
  | cons {ts us : List Token} {s : Stmt} {ss : List Stmt} (h : DerivesStmt .stmt ts s)
    (hss : DerivesStmt .stmts us ss) : DerivesStmt .stmts (ts ++ us) (s :: ss)
  | braces {left right : Token} {us : List Token} {ss : List Stmt} (hleft : left.kind = .leftBrace)
    (hss : DerivesStmt .stmts us ss) (hright : right.kind = .rightBrace) :
    DerivesStmt .block (left :: (us ++ [right])) (left.pos, ss)
  | noElse : DerivesStmt .otherwise [] none
  | elseIf {word first : Token} {ts : List Token} {s : Stmt} (hword : word.kind = .elseWord)
    (hfirst : first.kind = .ifWord) (h : DerivesStmt .stmt (first :: ts) s) :
    DerivesStmt .otherwise (word :: first :: ts) (some s)
  | elseBlock {word : Token} {ts : List Token} {pos : Pos} {ss : List Stmt} (hword : word.kind = .elseWord)
    (h : DerivesStmt .block ts (pos, ss)) : DerivesStmt .otherwise (word :: ts) (some (.block pos ss))

/-- the tokens are a program with these statements -/
abbrev Derives (ts : List Token) (stmts : List Stmt) : Prop := DerivesStmt .stmts ts stmts

/-! ## First tokens -/

theorem Operator.ne_end {l : Level} {k : TokenKind} {op : BinaryOp} (h : Operator l k op) : k ≠ .endOfInput := by
  cases h <;> decide

theorem Operator.ne_equals {l : Level} {k : TokenKind} {op : BinaryOp} (h : Operator l k op) : k ≠ .equals := by
  cases h <;> decide

/-- what is known of the first token of a phrase in an expression -/
def startsPhrase : Phrase → List Token → Prop
  | .args, _ => True
  | _, ts => ∃ t us, ts = t :: us ∧ t.kind.startsExpression = true

theorem startsPhrase_of_derives {s : Phrase} {ts : List Token} {x : s.Tree} (h : DerivesExpr s ts x) :
    startsPhrase s ts := by
  induction h with
  | tighter _ _ ih => exact ih
  | binary _ _ _ _ iha _ | range _ _ _ iha _ | call _ _ _ _ iha _ | more _ _ _ iha _ =>
    obtain ⟨t, us, rfl, ht⟩ := iha
    exact ⟨t, _, rfl, ht⟩
  | await ht _ _ | number ht | string ht | ident ht | group ht _ _ _ => exact ⟨_, _, rfl, by rw [ht]; rfl⟩
  | one _ ih => exact ih
  | noArgs => trivial
  | args _ _ => trivial

/-- an expression starts with a token that can start one -/
theorem DerivesExpr.head {l : Level} {ts : List Token} {e : Expr} (h : DerivesExpr (.expr l) ts e) :
    ∃ t us, ts = t :: us ∧ t.kind.startsExpression = true :=
  startsPhrase_of_derives h

/-- a block starts with a brace -/
theorem DerivesStmt.block_head {ts : List Token} {b : Pos × List Stmt} (h : DerivesStmt .block ts b) :
    ∃ t us, ts = t :: us ∧ t.kind = .leftBrace := by
  cases h with
  | braces hleft _ _ => exact ⟨_, _, rfl, hleft⟩

/-- no statement starts with `else`, with a closing brace or at the end -/
theorem DerivesStmt.head {ts : List Token} {s : Stmt} (h : DerivesStmt .stmt ts s) :
    ∃ t us, ts = t :: us ∧ t.kind ∉ [TokenKind.elseWord, .rightBrace, .endOfInput] := by
  cases h with
  | letDecl hk | assign hk | cond hk | loop hk | retNone hk | retSome hk => exact ⟨_, _, rfl, by rw [hk]; decide⟩
  | fnDecl has hgs hword =>
    cases has with
    | present hk => exact ⟨_, _, rfl, by rw [hk]; decide⟩
    | absent =>
      cases hgs with
      | present hk => exact ⟨_, _, rfl, by rw [hk]; decide⟩
      | absent => exact ⟨_, _, rfl, by rw [hword]; decide⟩
  | expr hx _ =>
    obtain ⟨t, us, rfl, ht⟩ := hx.head
    refine ⟨t, _, rfl, ?_⟩
    simp only [List.mem_cons, List.not_mem_nil, or_false, not_or]
    refine ⟨?_, ?_, ?_⟩ <;> intro hk <;> rw [hk] at ht <;> exact absurd ht (by decide)
  | block h =>
    obtain ⟨t, us, rfl, hk⟩ := h.block_head
    exact ⟨t, us, rfl, by rw [hk]; decide⟩

end Grammar

end Ouroboros
