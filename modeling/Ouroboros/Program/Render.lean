/-
Programs as canonical source text: one statement on a line, blocks indented by four spaces, single blanks around
operators, and parentheses where a tree needs them and has none of its own.
-/
import Ouroboros.Program
import Ouroboros.Text.Quoted

namespace Ouroboros

namespace BinaryOp

/-- how tightly an operator binds; ranges lie between comparisons and sums -/
def strength : BinaryOp → Nat
  | .greater => 1
  | .add | .sub => 3
  | .mul | .div | .unknown => 4

end BinaryOp

namespace Expr

/-- how tightly the outermost construct of an expression binds -/
def strength : Expr → Nat
  | .binary _ op .. => op.strength
  | .range .. => 2
  | .await .. => 5
  | _ => 6

def parenthesized (needed : Bool) (t : Bytes) : Bytes := if needed then text "(" ++ t ++ text ")" else t

mutual

/-- an expression on one line. An operand that binds less tightly than its place asks for gets parentheses. -/
def render : Expr → Bytes
  | .number _ value isInt spelling => if spelling = [] then Number.text ⟨value, isInt⟩ else spelling
  | .string _ value => Text.literal value
  | .ident _ name => name
  | .group _ inner => text "(" ++ inner.render ++ text ")"
  | .binary _ op left right =>
    parenthesized (left.strength < op.strength) left.render ++ text " " ++ op.sign ++ text " " ++
      parenthesized (right.strength < op.strength + 1) right.render
  | .range _ low high =>
    parenthesized (low.strength < 3) low.render ++ text ".." ++ parenthesized (high.strength < 3) high.render
  | .await _ inner => text "await " ++ parenthesized (inner.strength < 6) inner.render
  | .call _ callee args =>
    parenthesized (callee.strength < 6) callee.render ++ text "(" ++ renderArgs args ++ text ")"

def renderArgs : List Expr → Bytes
  | [] => []
  | arg :: rest =>
    match rest with
    | [] => arg.render
    | _ :: _ => arg.render ++ text ", " ++ renderArgs rest

end

end Expr

/-- a type behind the sign that introduces it -/
def TypeRef.renderAfter (sign : Bytes) : Option TypeRef → Bytes
  | none => []
  | some t => sign ++ t.name

def Param.render (p : Param) : Bytes := p.name ++ TypeRef.renderAfter (text ": ") p.type

def Signature.render (s : Signature) : Bytes :=
  (if s.isAsync then text "async " else []) ++ (if s.isGpu then text "gpu " else []) ++ text "fn " ++ s.name ++
    text "(" ++ Bytes.join (text ", ") (s.params.map Param.render) ++ text ")" ++
    TypeRef.renderAfter (text " -> ") s.result

namespace Stmt

/-- a line at a depth of nesting -/
def line (depth : Nat) (t : Bytes) : Bytes := List.replicate (4 * depth) Bytes.space ++ t ++ text "\n"

/-- a head with a block behind it, given the block's rendered statements; an empty block is closed on the same line -/
def withBlock (depth : Nat) (head : Bytes) (stmts : List Stmt) (body : Bytes) : Bytes :=
  if stmts.isEmpty then line depth (head ++ text "\x7b\x7d")
  else line depth (head ++ text "\x7b") ++ body ++ line depth (text "\x7d")

/-- a choice, given its rendered test, statements and end; `lead` stands in front of one that continues another -/
def condText (depth : Nat) (lead test thenBody rest : Bytes) : Bytes :=
  line depth (lead ++ text "if (" ++ test ++ text ") \x7b") ++ thenBody ++ rest

mutual

/-- a statement with its line ends -/
def renderAt (depth : Nat) : Stmt → Bytes
  | .letDecl _ name type init =>
    line depth (text "let " ++ name ++ TypeRef.renderAfter (text ": ") type ++ text " = " ++ init.render ++ text ";")
  | .assign _ name value => line depth (name ++ text " = " ++ value.render ++ text ";")
  | .expr _ x => line depth (x.render ++ text ";")
  | .ret _ none => line depth (text "return;")
  | .ret _ (some value) => line depth (text "return " ++ value.render ++ text ";")
  | .fnDecl _ sig _ body => withBlock depth (sig.render ++ text " ") body (renderAll (depth + 1) body)
  | .loop _ var bounds _ body =>
    withBlock depth (text "for " ++ var ++ text " in " ++ bounds.render ++ text " ") body (renderAll (depth + 1) body)
  | .block _ stmts => withBlock depth [] stmts (renderAll (depth + 1) stmts)
  | .cond _ test _ thenBody otherwise =>
    condText depth [] test.render (renderAll (depth + 1) thenBody) (renderElse depth otherwise)

def renderAll (depth : Nat) : List Stmt → Bytes
  | [] => []
  | s :: rest => renderAt depth s ++ renderAll depth rest

/-- the end of a choice: only choices and blocks can follow `else` -/
def renderElse (depth : Nat) : Option Stmt → Bytes
  | none => line depth (text "\x7d")
  | some (.cond _ test _ thenBody otherwise) =>
    condText depth (text "\x7d else ") test.render (renderAll (depth + 1) thenBody) (renderElse depth otherwise)
  | some (.block _ stmts) =>
    line depth (text "\x7d else \x7b") ++ renderAll (depth + 1) stmts ++ line depth (text "\x7d")
  | some _ => []

end

def render (s : Stmt) : Bytes := renderAt 0 s

end Stmt

namespace Program

/-- the statements of a program as source text -/
def render (p : Program) : Bytes := Stmt.renderAll 0 p.stmts

end Program

end Ouroboros
