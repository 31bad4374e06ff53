/-
Reading tokens as a program.

    program     statement*
    statement   "let" name (":" type)? "=" expr ";"
              | "async"? "gpu"? "fn" name "(" params? ")" ("->" type)? block
              | "if" "(" expr ")" block ("else" (if-statement | block))?
              | "for" name "in" expr block
              | "return" expr? ";"
              | block
              | name "=" expr ";"
              | expr ";"
    block       "{" statement* "}"
    expr        span (">" span)*
    span        sum (".." sum)?
    sum         product (("+" | "-") product)*
    product     unary (("*" | "/") unary)*
    unary       "await"? call
    call        primary ("(" (expr ("," expr)*)? ")")*
    primary     number | string | name | "(" expr ")"

One token decides how to go on, two in front of an assignment. A fault inside a block or at top level is recorded and
reading goes on behind the next semicolon or at the next brace, so one pass can show several faults. A fault at the end
of the tokens is marked as incomplete and ends all open blocks at once.

Every layer is a function of the layer below it. Nesting enters through one parameter: expressions in parentheses are
read by `nested`, statements in blocks by `inner`. Since each nesting costs a token, as many levels as there are tokens
suffice, and so do as many rounds of a repetition.
-/
import Ouroboros.Action
import Ouroboros.Program
import Ouroboros.Token.Scan

namespace Ouroboros

namespace Parse

/-- the tokens still to be read, none of which is an end of input, the place of the end, and the faults recorded -/
structure Cursor where
  rest : List Token
  finish : Pos
  recorded : List Diagnostic

abbrev Reader := Action Cursor

/-- the token to be read next -/
def Cursor.peek (c : Cursor) : Token := c.rest.head?.getD (.finish c.finish)

def peek : Reader Token := Action.asks Cursor.peek

/-- the kind of the token to be read next -/
def peekKind : Reader TokenKind := Action.asks fun c => c.peek.kind

def remaining : Reader Nat := Action.asks fun c => c.rest.length

/-- reads the next token, whatever it is -/
def advance : Reader Token := Action.exchange fun c => (c.peek, { c with rest := c.rest.tail })

/-- fails at a token; at the end of the tokens the fault is incomplete -/
def failAtToken {α : Type} (t : Token) (fault : Token → Fault) : Reader α :=
  Action.fail ⟨fault t, t.pos, [], t.kind = .endOfInput⟩

/-- reads a token of the kind, or fails -/
def need (kind : TokenKind) : Reader Token := do
  let t ← peek
  if t.kind = kind then advance else failAtToken t (.expectedToken kind)

/-- reads a token of the kind if one is next, and tells whether -/
def accept (kind : TokenKind) : Reader Bool := do
  if (← peekKind) = kind then
    let _ ← advance
    return true
  else
    return false

/-! ## Expressions -/

/-- continues an operator chain to the right, for at most `rounds` operators; chains group to the left -/
def chainRest (operand : Reader Expr) (op? : TokenKind → Option BinaryOp) : Nat → Expr → Reader Expr
  | 0, left => return left
  | rounds + 1, left => do
    match op? (← peekKind) with
    | none => return left
    | some op =>
      let sign ← advance
      let right ← operand
      chainRest operand op? rounds (.binary sign.pos op left right)

/-- operands with operators of one strength between them -/
def chain (operand : Reader Expr) (op? : TokenKind → Option BinaryOp) : Reader Expr := do
  let first ← operand
  chainRest operand op? (← remaining) first

/-- further items after commas, for at most `rounds` commas -/
def moreItems {α : Type} (item : Reader α) : Nat → Reader (List α)
  | 0 => return []
  | rounds + 1 => do
    if ← accept .comma then
      let a ← item
      let others ← moreItems item rounds
      return a :: others
    else
      return []

/-- items between commas, up to a closing parenthesis; none when it comes first -/
def items {α : Type} (item : Reader α) : Reader (List α) := do
  if (← peekKind) = .rightParen then return []
  else
    let first ← item
    let others ← moreItems item (← remaining)
    return first :: others

/-- a numeral is an integer when it is written without a point -/
def spellsInt (lexeme : Bytes) : Bool := !lexeme.contains Bytes.point

/-- numbers, strings, names and expressions in parentheses -/
def primary (nested : Reader Expr) : Reader Expr := do
  let t ← peek
  match t.kind with
  | .number =>
    let _ ← advance
    let value := match t.literal with
      | .number v => v
      | _ => 0.0
    return .number t.pos value (spellsInt t.lexeme) t.lexeme
  | .stringLiteral =>
    let _ ← advance
    let value := match t.literal with
      | .text s => s
      | _ => []
    return .string t.pos value
  | .identifier =>
    let _ ← advance
    return .ident t.pos t.lexeme
  | .leftParen =>
    let _ ← advance
    let inner ← nested
    let _ ← need .rightParen
    return .group t.pos inner
  | _ => failAtToken t .expectedExpression

/-- argument lists behind a callee, for at most `rounds` of them -/
def callRest (nested : Reader Expr) : Nat → Expr → Reader Expr
  | 0, callee => return callee
  | rounds + 1, callee => do
    if (← peekKind) = .leftParen then
      let sign ← advance
      let args ← items nested
      let _ ← need .rightParen
      callRest nested rounds (.call sign.pos callee args)
    else
      return callee

def call (nested : Reader Expr) : Reader Expr := do
  let callee ← primary nested
  callRest nested (← remaining) callee

/-- a call, awaited or not -/
def unary (nested : Reader Expr) : Reader Expr := do
  if (← peekKind) = .awaitWord then
    let word ← advance
    let inner ← call nested
    return .await word.pos inner
  else
    call nested

def productOp? : TokenKind → Option BinaryOp
  | .star => some .mul
  | .slash => some .div
  | _ => none

def sumOp? : TokenKind → Option BinaryOp
  | .plus => some .add
  | .minus => some .sub
  | _ => none

def compareOp? : TokenKind → Option BinaryOp
  | .greater => some .greater
  | _ => none

def product (nested : Reader Expr) : Reader Expr := chain (unary nested) productOp?

def sum (nested : Reader Expr) : Reader Expr := chain (product nested) sumOp?

/-- a sum, or a range between two; ranges do not chain -/
def span (nested : Reader Expr) : Reader Expr := do
  let low ← sum nested
  if (← peekKind) = .dots then
    let sign ← advance
    let high ← sum nested
    return .range sign.pos low high
  else
    return low

def comparison (nested : Reader Expr) : Reader Expr := chain (span nested) compareOp?

/-- expressions with at most `depth` levels of nesting -/
def exprWithin : Nat → Reader Expr
  | 0 => do failAtToken (← peek) .expectedExpression
  | depth + 1 => comparison (exprWithin depth)

def expr : Reader Expr := do exprWithin ((← remaining) + 1)

/-! ## Statements -/

def typeRef : Reader TypeRef := do
  let t ← peek
  if t.kind.isTypeWord || t.kind = .identifier then
    let _ ← advance
    return ⟨t.lexeme, t.pos⟩
  else
    failAtToken t .expectedType

/-- a type, if the sign in front of it is there -/
def typeAfter (sign : TokenKind) : Reader (Option TypeRef) := do
  if ← accept sign then return some (← typeRef) else return none

/-- skips tokens through the next semicolon or up to the next brace. A brace is skipped only when it is the token at
which the statement in error started, which had `start` tokens from there to the end. -/
def resume (start : Nat) : List Token → List Token
  | [] => []
  | t :: rest =>
    if t.kind = .semicolon then rest
    else if t.kind = .leftBrace ∨ t.kind = .rightBrace then
      if rest.length + 1 = start then rest else t :: rest
    else resume start rest

/-- records a fault and goes on behind it -/
def recover (start : Nat) (d : Diagnostic) : Reader Unit :=
  Action.change fun c => { c with rest := resume start c.rest, recorded := c.recorded ++ [d] }

/-- the statements of a block up to its closing brace, for at most `rounds` of them, faulty ones counted -/
def blockBody (inner : Reader Stmt) : Nat → Reader (List Stmt)
  | 0 => return []
  | rounds + 1 => do
    let kind ← peekKind
    if kind = .rightBrace ∨ kind = .endOfInput then return []
    else
      let start ← remaining
      match ← Action.attempt inner with
      | .ok s =>
        let others ← blockBody inner rounds
        return s :: others
      | .error d =>
        if d.incomplete then Action.fail d
        else
          recover start d
          blockBody inner rounds

/-- a block: its place and its statements -/
def block (inner : Reader Stmt) : Reader (Pos × List Stmt) := do
  let sign ← need .leftBrace
  let stmts ← blockBody inner (← remaining)
  let _ ← need .rightBrace
  return (sign.pos, stmts)

/-- `let name: type = init;` -/
def letDecl : Reader Stmt := do
  let word ← advance
  let name ← need .identifier
  let type ← typeAfter .colon
  let _ ← need .equals
  let init ← expr
  let _ ← need .semicolon
  return .letDecl word.pos name.lexeme type init

/-- `name = value;` -/
def assign : Reader Stmt := do
  let name ← advance
  let _ ← advance
  let value ← expr
  let _ ← need .semicolon
  return .assign name.pos name.lexeme value

/-- `name: type` -/
def param : Reader Param := do
  let name ← need .identifier
  let type ← typeAfter .colon
  return ⟨name.lexeme, type, name.pos⟩

/-- `async gpu fn name(params) -> type { ... }` -/
def fnDecl (inner : Reader Stmt) : Reader Stmt := do
  let first ← peek
  let isAsync ← accept .asyncWord
  let isGpu ← accept .gpuWord
  let _ ← need .fnWord
  let name ← need .identifier
  let _ ← need .leftParen
  let params ← items param
  let _ ← need .rightParen
  let result ← typeAfter .arrow
  let (bodyPos, body) ← block inner
  return .fnDecl first.pos ⟨name.lexeme, params, result, isAsync, isGpu⟩ bodyPos body

/-- what follows `else`: another choice or a block -/
def otherwise (inner : Reader Stmt) : Reader Stmt := do
  if (← peekKind) = .ifWord then inner
  else
    let (pos, stmts) ← block inner
    return .block pos stmts

/-- `if (test) { ... } else ...` -/
def cond (inner : Reader Stmt) : Reader Stmt := do
  let word ← advance
  let _ ← need .leftParen
  let test ← expr
  let _ ← need .rightParen
  let (thenPos, thenBody) ← block inner
  if ← accept .elseWord then
    let other ← otherwise inner
    return .cond word.pos test thenPos thenBody (some other)
  else
    return .cond word.pos test thenPos thenBody none

/-- `for var in bounds { ... }` -/
def loop (inner : Reader Stmt) : Reader Stmt := do
  let word ← advance
  let var ← need .identifier
  let _ ← need .inWord
  let bounds ← expr
  let (bodyPos, body) ← block inner
  return .loop word.pos var.lexeme bounds bodyPos body

/-- `return value;` -/
def ret : Reader Stmt := do
  let word ← advance
  if (← peekKind) = .semicolon then
    let _ ← advance
    return .ret word.pos none
  else
    let value ← expr
    let _ ← need .semicolon
    return .ret word.pos (some value)

/-- `x;` -/
def exprStmt : Reader Stmt := do
  let t ← peek
  let x ← expr
  let _ ← need .semicolon
  return .expr t.pos x

/-- whether the two tokens to be read next start an assignment -/
def startsAssign (c : Cursor) : Bool :=
  match c.rest with
  | a :: b :: _ => a.kind = .identifier && b.kind = .equals
  | _ => false

/-- a statement, with `inner` for the statements inside it -/
def statementWith (inner : Reader Stmt) : Reader Stmt := do
  let t ← peek
  match t.kind with
  | .letWord => letDecl
  | .fnWord | .asyncWord | .gpuWord => fnDecl inner
  | .ifWord => cond inner
  | .forWord => loop inner
  | .returnWord => ret
  | .leftBrace =>
    let (pos, stmts) ← block inner
    return .block pos stmts
  | kind =>
    if ← Action.asks startsAssign then assign
    else if kind.startsExpression then exprStmt
    else failAtToken t .expectedStatement

/-- statements with at most `depth` levels of nesting -/
def statementWithin : Nat → Reader Stmt
  | 0 => do failAtToken (← peek) .expectedStatement
  | depth + 1 => statementWith (statementWithin depth)

def statement : Reader Stmt := do statementWithin ((← remaining) + 1)

/-- the statements of a program, for at most `rounds` of them, faulty ones counted -/
def statements : Nat → Reader (List Stmt)
  | 0 => return []
  | rounds + 1 => do
    let start ← remaining
    if start = 0 then return []
    else
      match ← Action.attempt statement with
      | .ok s =>
        let others ← statements rounds
        return s :: others
      | .error d =>
        recover start d
        statements rounds

end Parse

namespace Program

/-- the tokens before the first end of input, and the place of that end; without one, the end is right behind the last
token -/
def cursor (tokens : List Token) : Parse.Cursor :=
  let rest := tokens.takeWhile (·.kind ≠ .endOfInput)
  let finish :=
    match tokens.drop rest.length, rest.getLast? with
    | t :: _, _ => t.pos
    | [], some t => ⟨t.pos.line, t.pos.col + t.lexeme.length⟩
    | [], none => Pos.start
  ⟨rest, finish, []⟩

def ofTokens (tokens : List Token) : Program :=
  let c := cursor tokens
  match Parse.statements c.rest.length c with
  | (.ok stmts, c) => ⟨stmts, c.recorded⟩
  | (.error d, c) => ⟨[], c.recorded ++ [d]⟩

/-- diagnostics in the order of their places; of two at one place the earlier in the list comes first -/
def inOrder (ds : List Diagnostic) : List Diagnostic := ds.mergeSort fun a b => !b.pos.before a.pos

/-- reads source text as a program. Lexical faults do not keep the rest from being read; when there are any, all
faults are put in the order of their places. -/
def ofSource (source : Bytes) : Program :=
  let scan := Token.scan source
  let program := ofTokens scan.tokens
  match scan.errors with
  | [] => program
  | errors => { program with errors := inOrder (errors ++ program.errors) }

def isSound (p : Program) : Bool := p.errors.isEmpty

end Program

end Ouroboros
