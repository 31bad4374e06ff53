/-
Trees that can be written, and the parentheses of their text.

A tree need not have been read. `WellFormed` says when it can be written: its names are names, its numerals have their
values, its operators have signs, and only blocks and choices follow `else`.

The text of a tree has parentheses where an operand binds less tightly than its place asks for. `grouped` puts them into
the tree. The grouped tree has the same text (`render_grouped`) and says the same up to parentheses (`forget_grouped`).
-/
import Ouroboros.Program.Parse
import Ouroboros.Proofs.Forgetting.Trees

namespace Ouroboros

/-! ## Trees that can be written -/

namespace Bytes

/-- whether the text is a name: a letter, name bytes behind it, and no word of the language -/
def isName : Bytes → Bool
  | [] => false
  | b :: w => isLetter b && w.all isNameByte && TokenKind.ofWord (b :: w) == .identifier

/-- whether the text names a type -/
def isTypeName (w : Bytes) : Bool := w.isName || [text "int", text "float", text "string"].contains w

/-- whether the text is a run of digits -/
def isDigits (w : Bytes) : Bool := !w.isEmpty && w.all isDigit

end Bytes

/-- the text of a numeral: digits, with a point and more digits when the number does not count as an integer -/
inductive IsNumeral : Bytes → Bool → Prop where
  | whole {w : Bytes} (h : w.isDigits = true) : IsNumeral w true
  | decimal {w v : Bytes} (hw : w.isDigits = true) (hv : v.isDigits = true) : IsNumeral (w ++ Bytes.point :: v) false

namespace Expr

mutual

/-- the expression can be written: its names are names, its numerals have their values, its operators have signs -/
def WellFormed : Expr → Prop
  | .number _ value isInt spelling => IsNumeral spelling isInt ∧ value = readNumeral spelling
  | .string _ _ => True
  | .ident _ name => name.isName = true
  | .binary _ op left right => op ≠ .unknown ∧ left.WellFormed ∧ right.WellFormed
  | .range _ low high => low.WellFormed ∧ high.WellFormed
  | .call _ callee args => callee.WellFormed ∧ AllWellFormed args
  | .await _ inner | .group _ inner => inner.WellFormed

/-- all of the expressions can be written -/
def AllWellFormed : List Expr → Prop
  | [] => True
  | e :: rest => e.WellFormed ∧ AllWellFormed rest

end

end Expr

/-- the type, if there is one, can be written -/
def TypeRef.WellFormed (t : Option TypeRef) : Prop := ∀ r ∈ t, r.name.isTypeName = true

/-- the parameter can be written -/
def Param.WellFormed (p : Param) : Prop := p.name.isName = true ∧ TypeRef.WellFormed p.type

/-- the signature can be written -/
def Signature.WellFormed (s : Signature) : Prop :=
  s.name.isName = true ∧ (∀ p ∈ s.params, p.WellFormed) ∧ TypeRef.WellFormed s.result

namespace Stmt

mutual

/-- the statement can be written -/
def WellFormed : Stmt → Prop
  | .letDecl _ name type init => name.isName = true ∧ TypeRef.WellFormed type ∧ init.WellFormed
  | .assign _ name value => name.isName = true ∧ value.WellFormed
  | .fnDecl _ sig _ body => sig.WellFormed ∧ AllWellFormed body
  | .cond _ test _ thenBody otherwise => test.WellFormed ∧ AllWellFormed thenBody ∧ ElseWellFormed otherwise
  | .loop _ var bounds _ body => var.isName = true ∧ bounds.WellFormed ∧ AllWellFormed body
  | .ret _ value => ∀ x ∈ value, x.WellFormed
  | .expr _ x => x.WellFormed
  | .block _ stmts => AllWellFormed stmts

/-- all of the statements can be written -/
def AllWellFormed : List Stmt → Prop
  | [] => True
  | s :: rest => s.WellFormed ∧ AllWellFormed rest

/-- the end of a choice can be written: it is a block or another choice, if there is one -/
def ElseWellFormed : Option Stmt → Prop
  | none => True
  | some (.cond _ test _ thenBody otherwise) =>
    test.WellFormed ∧ AllWellFormed thenBody ∧ ElseWellFormed otherwise
  | some (.block _ stmts) => AllWellFormed stmts
  | some _ => False

end

end Stmt

/-! ## The parentheses of the text -/

theorem BinaryOp.strength_le (op : BinaryOp) : op.strength + 1 ≤ 6 := by
  cases op <;> decide

namespace Expr

/-- the expression, in parentheses when `needed` -/
def enclosed (needed : Bool) (e : Expr) : Expr := if needed then .group .unknown e else e

mutual

/-- the expression with the parentheses that its text has -/
def grouped : Expr → Expr
  | .number pos value isInt spelling => .number pos value isInt spelling
  | .string pos value => .string pos value
  | .ident pos name => .ident pos name
  | .binary pos op left right =>
    .binary pos op (enclosed (left.strength < op.strength) left.grouped)
      (enclosed (right.strength < op.strength + 1) right.grouped)
  | .range pos low high =>
    .range pos (enclosed (low.strength < 3) low.grouped) (enclosed (high.strength < 3) high.grouped)
  | .call pos callee args => .call pos (enclosed (callee.strength < 6) callee.grouped) (groupedAll args)
  | .await pos inner => .await pos (enclosed (inner.strength < 6) inner.grouped)
  | .group pos inner => .group pos inner.grouped

/-- expressions with the parentheses that their text has -/
def groupedAll : List Expr → List Expr
  | [] => []
  | e :: rest => e.grouped :: groupedAll rest

end

theorem strength_grouped (e : Expr) : e.grouped.strength = e.strength := by
  cases e <;> rfl

/-- an operand in parentheses needs none from the text -/
theorem parenthesized_enclosed (e : Expr) (k : Nat) (hk : k ≤ 6) :
    parenthesized ((enclosed (e.strength < k) e.grouped).strength < k) (enclosed (e.strength < k) e.grouped).render =
      parenthesized (e.strength < k) e.grouped.render := by
  by_cases h : e.strength < k
  · have hgroup : ¬(Expr.group .unknown e.grouped).strength < k := by
      simp only [strength]
      omega
    simp only [enclosed, h, decide_true, if_true, hgroup, decide_false]
    simp [parenthesized, render]
  · simp [enclosed, h, strength_grouped]

mutual

/-- the parentheses are those of the text -/
theorem render_grouped : (e : Expr) → e.grouped.render = e.render
  | .number .. | .string .. | .ident .. => rfl
  | .binary _ op left right => by
    have hop := op.strength_le
    rw [grouped, render, parenthesized_enclosed left _ (by omega), parenthesized_enclosed right _ hop,
      render_grouped left, render_grouped right, render]
  | .range _ low high => by
    rw [grouped, render, parenthesized_enclosed low 3 (by decide), parenthesized_enclosed high 3 (by decide),
      render_grouped low, render_grouped high, render]
  | .call _ callee args => by
    rw [grouped, render, parenthesized_enclosed callee 6 (by decide), render_grouped callee,
      renderArgs_grouped args, render]
  | .await _ inner => by
    rw [grouped, render, parenthesized_enclosed inner 6 (by decide), render_grouped inner, render]
  | .group _ inner => by rw [grouped, render, render_grouped inner, render]

theorem renderArgs_grouped : (es : List Expr) → renderArgs (groupedAll es) = renderArgs es
  | [] => rfl
  | [e] => render_grouped e
  | e :: e' :: rest => by
    have hrest := renderArgs_grouped (e' :: rest)
    rw [groupedAll] at hrest
    rw [groupedAll, groupedAll, renderArgs_cons_cons, renderArgs_cons_cons, render_grouped e, hrest]

end

theorem forget_enclosed (needed : Bool) (e : Expr) :
    (enclosed needed e).forget .grouping = e.forget .grouping := by
  cases needed <;> rfl

mutual

/-- the expression says the same, up to parentheses -/
theorem forget_grouped : (e : Expr) → e.grouped.forget .grouping = e.forget .grouping
  | .number .. | .string .. | .ident .. => rfl
  | .binary _ _ left right => by
    simp only [grouped, forget, forget_enclosed, forget_grouped left, forget_grouped right]
  | .range _ low high => by simp only [grouped, forget, forget_enclosed, forget_grouped low, forget_grouped high]
  | .call _ callee args => by
    simp only [grouped, forget, forget_enclosed, forget_grouped callee, forgetAll_grouped args]
  | .await _ inner => by simp only [grouped, forget, forget_enclosed, forget_grouped inner]
  | .group _ inner => by simp only [grouped, forget, forget_grouped inner]

theorem forgetAll_grouped : (es : List Expr) → forgetAll .grouping (groupedAll es) = forgetAll .grouping es
  | [] => rfl
  | e :: rest => by simp only [groupedAll, forgetAll, forget_grouped e, forgetAll_grouped rest]

end

end Expr

namespace Stmt

mutual

/-- the statement with the parentheses that its text has -/
def grouped : Stmt → Stmt
  | .letDecl pos name type init => .letDecl pos name type init.grouped
  | .assign pos name value => .assign pos name value.grouped
  | .fnDecl pos sig bodyPos body => .fnDecl pos sig bodyPos (groupedAll body)
  | .cond pos test thenPos thenBody otherwise =>
    .cond pos test.grouped thenPos (groupedAll thenBody) (groupedElse otherwise)
  | .loop pos var bounds bodyPos body => .loop pos var bounds.grouped bodyPos (groupedAll body)
  | .ret pos value => .ret pos (value.map Expr.grouped)
  | .expr pos x => .expr pos x.grouped
  | .block pos stmts => .block pos (groupedAll stmts)

/-- statements with the parentheses that their text has -/
def groupedAll : List Stmt → List Stmt
  | [] => []
  | s :: rest => s.grouped :: groupedAll rest

/-- the end of a choice with the parentheses that its text has -/
def groupedElse : Option Stmt → Option Stmt
  | none => none
  | some s => some s.grouped

end

theorem isEmpty_groupedAll (ss : List Stmt) : (groupedAll ss).isEmpty = ss.isEmpty := by
  cases ss <;> rfl

mutual

theorem renderAt_grouped (depth : Nat) : (s : Stmt) → renderAt depth s.grouped = renderAt depth s
  | .letDecl .. | .assign .. | .ret _ (some _) | .expr .. => by
    simp only [grouped, renderAt, Option.map_some, Expr.render_grouped]
  | .ret _ none => rfl
  | .fnDecl _ _ _ body => by
    simp only [grouped, renderAt, withBlock, isEmpty_groupedAll, renderAll_grouped (depth + 1) body]
  | .loop _ _ _ _ body => by
    simp only [grouped, renderAt, Expr.render_grouped, withBlock, isEmpty_groupedAll,
      renderAll_grouped (depth + 1) body]
  | .block _ stmts => by
    simp only [grouped, renderAt, withBlock, isEmpty_groupedAll, renderAll_grouped (depth + 1) stmts]
  | .cond _ _ _ thenBody otherwise => by
    simp only [grouped, renderAt, Expr.render_grouped, renderAll_grouped (depth + 1) thenBody,
      renderElse_grouped depth otherwise]

theorem renderAll_grouped (depth : Nat) : (ss : List Stmt) → renderAll depth (groupedAll ss) = renderAll depth ss
  | [] => rfl
  | s :: rest => by simp only [groupedAll, renderAll, renderAt_grouped depth s, renderAll_grouped depth rest]

theorem renderElse_grouped (depth : Nat) : (o : Option Stmt) → renderElse depth (groupedElse o) = renderElse depth o
  | none => rfl
  | some (.cond _ _ _ thenBody otherwise) => by
    simp only [groupedElse, grouped, renderElse, Expr.render_grouped, renderAll_grouped (depth + 1) thenBody,
      renderElse_grouped depth otherwise]
  | some (.block _ stmts) => by
    simp only [groupedElse, grouped, renderElse, renderAll_grouped (depth + 1) stmts]
  | some (.letDecl ..) | some (.assign ..) | some (.fnDecl ..) | some (.loop ..) | some (.ret _ none)
  | some (.ret _ (some _)) | some (.expr ..) => rfl

end

mutual

theorem forget_grouped : (s : Stmt) → s.grouped.forget .grouping = s.forget .grouping
  | .letDecl .. | .assign .. | .ret _ (some _) | .expr .. => by
    simp only [grouped, forget, Option.map_some, Expr.forget_grouped]
  | .ret _ none => rfl
  | .fnDecl _ _ _ body => by simp only [grouped, forget, forgetAll_grouped body]
  | .cond _ _ _ thenBody otherwise => by
    simp only [grouped, forget, Expr.forget_grouped, forgetAll_grouped thenBody, forgetElse_grouped otherwise]
  | .loop _ _ _ _ body => by simp only [grouped, forget, Expr.forget_grouped, forgetAll_grouped body]
  | .block _ stmts => by simp only [grouped, forget, forgetAll_grouped stmts]

theorem forgetAll_grouped : (ss : List Stmt) → forgetAll .grouping (groupedAll ss) = forgetAll .grouping ss
  | [] => rfl
  | s :: rest => by simp only [groupedAll, forgetAll, forget_grouped s, forgetAll_grouped rest]

theorem forgetElse_grouped : (o : Option Stmt) → forgetElse .grouping (groupedElse o) = forgetElse .grouping o
  | none => rfl
  | some s => by simp only [groupedElse, forgetElse, forget_grouped s]

end

end Stmt

end Ouroboros
