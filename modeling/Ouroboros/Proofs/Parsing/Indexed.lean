/-
Reading tokens by their indices.

The reader of programs takes tokens from the front of a list, and bounds its nesting and its repetitions by the number of
tokens left. Here the same is done with an index into the list that an end of input closes: a step looks at the token at
the index or at the one behind it, and moves the index by one, never past an end of input. Loops go on for as long as the
tokens ask for it, and nested phrases are read by plain recursion.

So nothing here ends by construction, and nothing keeps an index in range. Calls may be nested `k` deep, for any `k`. A
step gives `none` when it looks outside the list and when it needs deeper calls, so it `Ends` if it gives one result for
every depth that is large enough.
-/
import Ouroboros.Program.Parse

namespace Ouroboros

namespace Walk

/-- the index of the token to be read next, and the faults recorded -/
structure Mark where
  index : Nat
  recorded : List Diagnostic

/-- a reading step over a list of tokens -/
abbrev Walker := ReaderT (List Token) (ExceptT Diagnostic (StateT Mark Option))

variable {α : Type}

/-- the result is the same for every depth of calls that is large enough -/
def Ends (run : Nat → Option α) (a : α) : Prop := ∃ enough, ∀ k, enough ≤ k → run k = some a

/-- calls are nested too deep -/
def tooDeep : Walker α := fun _ _ => none

/-! ## Single tokens -/

/-- of an end of input only the place counts -/
def plain (t : Token) : Token := if t.kind = .endOfInput then .finish t.pos else t

/-- the token at an index, if the index is in range -/
def tokenAt (i : Nat) : Walker Token := fun tokens m => tokens[i]?.map fun t => (.ok (plain t), m)

/-- the index of the token to be read next -/
def index : Walker Nat := fun _ m => some (.ok m.index, m)

/-- the token to be read next -/
def peek : Walker Token := do tokenAt (← index)

/-- the kind of the token to be read next -/
def peekKind : Walker TokenKind := do return (← peek).kind

/-- the kind of the token behind the next one, or of the last token -/
def kindBehind : Walker TokenKind := do
  let tokens ← read
  return (← tokenAt (min ((← index) + 1) (tokens.length - 1))).kind

/-- goes to the next index -/
def step : Walker Unit := fun _ m => some (.ok (), { m with index := m.index + 1 })

/-- reads the next token; an end of input is not left behind -/
def advance : Walker Token := do
  let t ← peek
  if t.kind = .endOfInput then return t
  else
    step
    return t

/-- fails at a token; at the end of the tokens the fault is incomplete -/
def failAtToken (t : Token) (fault : Token → Fault) : Walker α :=
  throw ⟨fault t, t.pos, [], t.kind = .endOfInput⟩

/-- reads a token of the kind, or fails -/
def need (kind : TokenKind) : Walker Token := do
  let t ← peek
  if t.kind = kind then advance else failAtToken t (.expectedToken kind)

/-- reads a token of the kind if one is next, and tells whether -/
def accept (kind : TokenKind) : Walker Bool := do
  if (← peekKind) = kind then
    let _ ← advance
    return true
  else
    return false

/-! ## Expressions -/

/-- the operators of one strength between operands -/
inductive Level where
  | compare
  | sum
  | product

/-- the operators of a level -/
def Level.op? : Level → TokenKind → Option BinaryOp
  | .compare => Parse.compareOp?
  | .sum => Parse.sumOp?
  | .product => Parse.productOp?

mutual

/-- an expression -/
def expr : Nat → Walker Expr
  | 0 => tooDeep
  | k + 1 => chain .compare k

/-- operands with operators of one level between them -/
def chain (level : Level) : Nat → Walker Expr
  | 0 => tooDeep
  | k + 1 => do
    let first ← operand level k
    chainRest level first k

/-- continues an operator chain to the right -/
def chainRest (level : Level) (left : Expr) : Nat → Walker Expr
  | 0 => tooDeep
  | k + 1 => do
    match level.op? (← peekKind) with
    | none => return left
    | some op =>
      let sign ← advance
      let right ← operand level k
      chainRest level (.binary sign.pos op left right) k

/-- what stands between the operators of a level -/
def operand (level : Level) : Nat → Walker Expr
  | 0 => tooDeep
  | k + 1 =>
    match level with
    | .compare => span k
    | .sum => chain .product k
    | .product => unary k

/-- a sum, or a range between two -/
def span : Nat → Walker Expr
  | 0 => tooDeep
  | k + 1 => do
    let low ← chain .sum k
    if (← peekKind) = .dots then
      let sign ← advance
      let high ← chain .sum k
      return .range sign.pos low high
    else
      return low

/-- a call, awaited or not -/
def unary : Nat → Walker Expr
  | 0 => tooDeep
  | k + 1 => do
    if (← peekKind) = .awaitWord then
      let word ← advance
      let inner ← call k
      return .await word.pos inner
    else
      call k

/-- calls, which chain -/
def call : Nat → Walker Expr
  | 0 => tooDeep
  | k + 1 => do
    let callee ← primary k
    callRest callee k

/-- argument lists behind a callee -/
def callRest (callee : Expr) : Nat → Walker Expr
  | 0 => tooDeep
  | k + 1 => do
    if (← peekKind) = .leftParen then
      let sign ← advance
      let args ← arguments k
      let _ ← need .rightParen
      callRest (.call sign.pos callee args) k
    else
      return callee

/-- expressions between commas, up to a closing parenthesis -/
def arguments : Nat → Walker (List Expr)
  | 0 => tooDeep
  | k + 1 => do
    if (← peekKind) = .rightParen then return []
    else
      let first ← expr k
      let others ← moreArguments k
      return first :: others

/-- further expressions after commas -/
def moreArguments : Nat → Walker (List Expr)
  | 0 => tooDeep
  | k + 1 => do
    if ← accept .comma then
      let a ← expr k
      let others ← moreArguments k
      return a :: others
    else
      return []

/-- numbers, strings, names and expressions in parentheses -/
def primary : Nat → Walker Expr
  | 0 => tooDeep
  | k + 1 => do
    let t ← peek
    match t.kind with
    | .number =>
      let _ ← advance
      let value := match t.literal with
        | .number v => v
        | _ => 0.0
      return .number t.pos value (Parse.spellsInt t.lexeme) t.lexeme
    | .stringLiteral =>
      let _ ← advance
      let value := match t.literal with
        | .text s => s
        | _ => []
      return .string t.pos value
    | .identifier =>
      let _ ← advance
      return .ident t.pos t.lexeme
    | .leftParen =>
      let _ ← advance
      let inner ← expr k
      let _ ← need .rightParen
      return .group t.pos inner
    | _ => failAtToken t .expectedExpression

end

/-! ## Statements without statements inside -/

/-- the name of a type -/
def typeRef : Walker TypeRef := do
  let t ← peek
  if t.kind.isTypeWord || t.kind = .identifier then
    let _ ← advance
    return ⟨t.lexeme, t.pos⟩
  else
    failAtToken t .expectedType

/-- a type, if the sign in front of it is there -/
def typeAfter (sign : TokenKind) : Walker (Option TypeRef) := do
  if ← accept sign then return some (← typeRef) else return none

/-- `let name: type = init;` -/
def letDecl (k : Nat) : Walker Stmt := do
  let word ← advance
  let name ← need .identifier
  let type ← typeAfter .colon
  let _ ← need .equals
  let init ← expr k
  let _ ← need .semicolon
  return .letDecl word.pos name.lexeme type init

/-- `name = value;` -/
def assign (k : Nat) : Walker Stmt := do
  let name ← advance
  let _ ← advance
  let value ← expr k
  let _ ← need .semicolon
  return .assign name.pos name.lexeme value

/-- `return value;` -/
def ret (k : Nat) : Walker Stmt := do
  let word ← advance
  if (← peekKind) = .semicolon then
    let _ ← advance
    return .ret word.pos none
  else
    let value ← expr k
    let _ ← need .semicolon
    return .ret word.pos (some value)

/-- `x;` -/
def exprStmt (k : Nat) : Walker Stmt := do
  let t ← peek
  let x ← expr k
  let _ ← need .semicolon
  return .expr t.pos x

/-- `name: type` -/
def param : Walker Param := do
  let name ← need .identifier
  let type ← typeAfter .colon
  return ⟨name.lexeme, type, name.pos⟩

/-- further parameters after commas -/
def moreParams : Nat → Walker (List Param)
  | 0 => tooDeep
  | k + 1 => do
    if ← accept .comma then
      let a ← param
      let others ← moreParams k
      return a :: others
    else
      return []

/-- parameters between commas, up to a closing parenthesis -/
def params (k : Nat) : Walker (List Param) := do
  if (← peekKind) = .rightParen then return []
  else
    let first ← param
    let others ← moreParams k
    return first :: others

/-! ## Recovery -/

/-- records a fault -/
def record (d : Diagnostic) : Walker Unit := fun _ m => some (.ok (), { m with recorded := m.recorded ++ [d] })

/-- skips tokens through the next semicolon or up to the next brace. A brace is skipped only when it is the token at
which the statement in error started, the one at the index `start`. -/
def synchronize (start : Nat) : Nat → Walker Unit
  | 0 => tooDeep
  | k + 1 => do
    let kind ← peekKind
    if kind = .endOfInput then return ()
    else if kind = .semicolon then step
    else if kind = .leftBrace ∨ kind = .rightBrace then
      if (← index) = start then step else return ()
    else
      step
      synchronize start k

/-- what comes of a statement that started at the index `start`: itself, or recovery from its fault unless the fault ends
the loop -/
def settle (ends : Diagnostic → Bool) (start : Nat) (out : Except Diagnostic Stmt) (k : Nat) :
    Walker (Option Stmt) := do
  match out with
  | .ok s => return some s
  | .error d =>
    if ends d then throw d
    else
      record d
      synchronize start k
      return none

/-! ## Statements -/

mutual

/-- a statement -/
def statement : Nat → Walker Stmt
  | 0 => tooDeep
  | k + 1 => do
    let t ← peek
    match t.kind with
    | .letWord => letDecl k
    | .fnWord | .asyncWord | .gpuWord => fnDecl k
    | .ifWord => cond k
    | .forWord => loop k
    | .returnWord => ret k
    | .leftBrace =>
      let (pos, stmts) ← block k
      return .block pos stmts
    | .identifier => if (← kindBehind) = .equals then assign k else exprStmt k
    | kind => if kind.startsExpression then exprStmt k else failAtToken t .expectedStatement

/-- one round of a block: a statement, or recovery from its fault. An incomplete fault ends the block. -/
def blockRound : Nat → Walker (Option Stmt)
  | 0 => tooDeep
  | k + 1 => fun tokens m => do
    let (out, m') ← statement k tokens m
    settle Diagnostic.incomplete m.index out k tokens m'

/-- the statements of a block up to its closing brace -/
def blockBody : Nat → Walker (List Stmt)
  | 0 => tooDeep
  | k + 1 => do
    let kind ← peekKind
    if kind = .rightBrace ∨ kind = .endOfInput then return []
    else
      let s? ← blockRound k
      let others ← blockBody k
      return s?.toList ++ others

/-- a block: its place and its statements -/
def block : Nat → Walker (Pos × List Stmt)
  | 0 => tooDeep
  | k + 1 => do
    let sign ← need .leftBrace
    let stmts ← blockBody k
    let _ ← need .rightBrace
    return (sign.pos, stmts)

/-- `async gpu fn name(params) -> type { ... }` -/
def fnDecl : Nat → Walker Stmt
  | 0 => tooDeep
  | k + 1 => do
    let first ← peek
    let isAsync ← accept .asyncWord
    let isGpu ← accept .gpuWord
    let _ ← need .fnWord
    let name ← need .identifier
    let _ ← need .leftParen
    let params ← params k
    let _ ← need .rightParen
    let result ← typeAfter .arrow
    let (bodyPos, body) ← block k
    return .fnDecl first.pos ⟨name.lexeme, params, result, isAsync, isGpu⟩ bodyPos body

/-- what follows `else`: another choice or a block -/
def otherwise : Nat → Walker Stmt
  | 0 => tooDeep
  | k + 1 => do
    if (← peekKind) = .ifWord then statement k
    else
      let (pos, stmts) ← block k
      return .block pos stmts

/-- `if (test) { ... } else ...` -/
def cond : Nat → Walker Stmt
  | 0 => tooDeep
  | k + 1 => do
    let word ← advance
    let _ ← need .leftParen
    let test ← expr k
    let _ ← need .rightParen
    let (thenPos, thenBody) ← block k
    if ← accept .elseWord then
      let other ← otherwise k
      return .cond word.pos test thenPos thenBody (some other)
    else
      return .cond word.pos test thenPos thenBody none

/-- `for var in bounds { ... }` -/
def loop : Nat → Walker Stmt
  | 0 => tooDeep
  | k + 1 => do
    let word ← advance
    let var ← need .identifier
    let _ ← need .inWord
    let bounds ← expr k
    let (bodyPos, body) ← block k
    return .loop word.pos var.lexeme bounds bodyPos body

end

/-- one round of a program: a statement, or recovery from its fault -/
def programRound (k : Nat) : Walker (Option Stmt) := fun tokens m => do
  let (out, m') ← statement k tokens m
  settle (fun _ => false) m.index out k tokens m'

/-- the statements of a program -/
def program : Nat → Walker (List Stmt)
  | 0 => tooDeep
  | k + 1 => do
    if (← peekKind) = .endOfInput then return []
    else
      let s? ← programRound k
      let others ← program k
      return s?.toList ++ others

/-! ## Lists of tokens -/

/-- the tokens, closed by an end of input right behind the last one unless the last one is an end of input -/
def closed (tokens : List Token) : List Token :=
  match tokens.getLast? with
  | none => [.finish .start]
  | some t =>
    if t.kind = .endOfInput then tokens else tokens ++ [.finish ⟨t.pos.line, t.pos.col + t.lexeme.length⟩]

/-- reads tokens as a program -/
def parse (tokens : List Token) (k : Nat) : Option Program := do
  let (out, m) ← program k (closed tokens) ⟨0, []⟩
  match out with
  | .ok stmts => some ⟨stmts, m.recorded⟩
  | .error d => some ⟨[], m.recorded ++ [d]⟩

end Walk

end Ouroboros
