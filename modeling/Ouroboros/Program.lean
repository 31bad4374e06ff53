/-
Programs: expressions, statements and the declarations of functions, as trees with the places they were read from.

The trees hold everything that the written form shows, also what evaluation ignores: parentheses, the spelling of
numerals, type annotations.
-/
import Ouroboros.Diagnostic

namespace Ouroboros

/-- a written type; types are read and kept, and otherwise ignored -/
structure TypeRef where
  name : Bytes
  pos : Pos
deriving DecidableEq, Repr

structure Param where
  name : Bytes
  type : Option TypeRef
  pos : Pos
deriving DecidableEq, Repr

/-- what is declared of a function before its body -/
structure Signature where
  name : Bytes
  params : List Param
  result : Option TypeRef
  isAsync : Bool
  isGpu : Bool
deriving DecidableEq, Repr

inductive Expr where
  /-- a numeral; `isInt` when it is written without a fraction, `spelling` as it is written -/
  | number (pos : Pos) (value : Float) (isInt : Bool) (spelling : Bytes)
  | string (pos : Pos) (value : Bytes)
  | ident (pos : Pos) (name : Bytes)
  /-- an operator between two operands, at the operator's place -/
  | binary (pos : Pos) (op : BinaryOp) (left right : Expr)
  /-- the integers from `low` up to, not including, `high` -/
  | range (pos : Pos) (low high : Expr)
  /-- a call, at the place of its opening parenthesis -/
  | call (pos : Pos) (callee : Expr) (args : List Expr)
  | await (pos : Pos) (inner : Expr)
  /-- an expression in parentheses -/
  | group (pos : Pos) (inner : Expr)

inductive Stmt where
  | letDecl (pos : Pos) (name : Bytes) (type : Option TypeRef) (init : Expr)
  | assign (pos : Pos) (name : Bytes) (value : Expr)
  /-- a function with the place and the statements of its body -/
  | fnDecl (pos : Pos) (sig : Signature) (bodyPos : Pos) (body : List Stmt)
  /-- a choice; in written programs `otherwise` is a block or another choice -/
  | cond (pos : Pos) (test : Expr) (thenPos : Pos) (thenBody : List Stmt) (otherwise : Option Stmt)
  | loop (pos : Pos) (var : Bytes) (bounds : Expr) (bodyPos : Pos) (body : List Stmt)
  | ret (pos : Pos) (value : Option Expr)
  | expr (pos : Pos) (x : Expr)
  | block (pos : Pos) (stmts : List Stmt)

namespace Expr

def pos : Expr → Pos
  | .number p .. | .string p .. | .ident p .. | .binary p .. | .range p .. | .call p .. | .await p .. | .group p .. => p

end Expr

namespace Stmt

def pos : Stmt → Pos
  | .letDecl p .. | .assign p .. | .fnDecl p .. | .cond p .. | .loop p .. | .ret p .. | .expr p .. | .block p .. => p

end Stmt

/-- what reading a text as a program gives: the statements that could be read, and what is wrong with it -/
structure Program where
  stmts : List Stmt
  errors : List Diagnostic

end Ouroboros
