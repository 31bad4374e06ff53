/-
Trees up to details.

A tree holds more than what it says: places, parentheses, `await`, the spelling of numerals, types. `Details` chooses
which of these are forgotten, and `forget` forgets them, places always. Two trees say the same when they are equal after
that. When nothing but places is forgotten this is `unplaced` (`forget_places`), and a tree and its form at no place
always say the same (`forget_unplaced`).
-/
import Ouroboros.Proofs.Places

namespace Ouroboros

/-- what is forgotten of a tree beside its places -/
structure Details where
  groups : Bool
  awaits : Bool
  spellings : Bool
  types : Bool
deriving DecidableEq, Repr

namespace Details

/-- nothing but places -/
def places : Details := ⟨false, false, false, false⟩

/-- places and parentheses -/
def grouping : Details := ⟨true, false, false, false⟩

/-- everything that evaluation does not look at -/
def all : Details := ⟨true, true, true, true⟩

/-- a written type -/
def type (d : Details) (t : Option TypeRef) : Option TypeRef := if d.types then none else t.map TypeRef.unplaced

/-- the spelling of a numeral -/
def spelling (d : Details) (w : Bytes) : Bytes := if d.spellings then [] else w

end Details

/-! ## Trees -/

namespace Expr

mutual

/-- the expression without the details -/
def forget (d : Details) : Expr → Expr
  | .number _ value isInt spelling => .number .unknown value isInt (d.spelling spelling)
  | .string _ value => .string .unknown value
  | .ident _ name => .ident .unknown name
  | .binary _ op left right => .binary .unknown op (left.forget d) (right.forget d)
  | .range _ low high => .range .unknown (low.forget d) (high.forget d)
  | .call _ callee args => .call .unknown (callee.forget d) (forgetAll d args)
  | .await _ inner => if d.awaits then inner.forget d else .await .unknown (inner.forget d)
  | .group _ inner => if d.groups then inner.forget d else .group .unknown (inner.forget d)

/-- expressions without the details -/
def forgetAll (d : Details) : List Expr → List Expr
  | [] => []
  | e :: rest => e.forget d :: forgetAll d rest

end

end Expr

/-- the parameter without the details -/
def Param.forget (d : Details) (p : Param) : Param := ⟨p.name, d.type p.type, .unknown⟩

/-- the signature without the details -/
def Signature.forget (d : Details) (s : Signature) : Signature :=
  { s with params := s.params.map (Param.forget d), result := d.type s.result }

namespace Stmt

mutual

/-- the statement without the details -/
def forget (d : Details) : Stmt → Stmt
  | .letDecl _ name type init => .letDecl .unknown name (d.type type) (init.forget d)
  | .assign _ name value => .assign .unknown name (value.forget d)
  | .fnDecl _ sig _ body => .fnDecl .unknown (sig.forget d) .unknown (forgetAll d body)
  | .cond _ test _ thenBody otherwise =>
    .cond .unknown (test.forget d) .unknown (forgetAll d thenBody) (forgetElse d otherwise)
  | .loop _ var bounds _ body => .loop .unknown var (bounds.forget d) .unknown (forgetAll d body)
  | .ret _ value => .ret .unknown (value.map (Expr.forget d))
  | .expr _ x => .expr .unknown (x.forget d)
  | .block _ stmts => .block .unknown (forgetAll d stmts)

/-- statements without the details -/
def forgetAll (d : Details) : List Stmt → List Stmt
  | [] => []
  | s :: rest => s.forget d :: forgetAll d rest

/-- the end of a choice without the details -/
def forgetElse (d : Details) : Option Stmt → Option Stmt
  | none => none
  | some s => some (s.forget d)

end

end Stmt

/-! ## Places -/

theorem Expr.pos_forget (d : Details) : (e : Expr) → (e.forget d).pos = .unknown
  | .await _ inner | .group _ inner => by
    rw [forget]
    split
    · exact pos_forget d inner
    · rfl
  | .number .. | .string .. | .ident .. | .binary .. | .range .. | .call .. => rfl

theorem Details.type_type (d : Details) (t : Option TypeRef) : d.type (d.type t) = d.type t := by
  unfold type
  split
  · rfl
  · cases t <;> rfl

theorem Details.spelling_spelling (d : Details) (w : Bytes) : d.spelling (d.spelling w) = d.spelling w := by
  unfold spelling
  split <;> rfl

theorem Details.type_unplaced (d : Details) (t : Option TypeRef) : d.type (t.map TypeRef.unplaced) = d.type t := by
  cases t <;> rfl

theorem Param.forget_unplaced (d : Details) (p : Param) : p.unplaced.forget d = p.forget d := by
  simp only [Param.forget, Param.unplaced, Details.type_unplaced]

theorem Signature.forget_unplaced (d : Details) (s : Signature) : s.unplaced.forget d = s.forget d := by
  simp only [Signature.forget, Signature.unplaced, Details.type_unplaced, List.map_map]
  have hparams : Param.forget d ∘ Param.unplaced = Param.forget d := funext (Param.forget_unplaced d)
  rw [hparams]

/-! ## Forgetting twice -/

namespace Expr

mutual

theorem forget_forget (d : Details) : (e : Expr) → (e.forget d).forget d = e.forget d
  | .string .. | .ident .. => rfl
  | .number _ _ _ w => by simp only [forget, d.spelling_spelling w]
  | .binary _ _ left right => by simp only [forget, forget_forget d left, forget_forget d right]
  | .range _ low high => by simp only [forget, forget_forget d low, forget_forget d high]
  | .call _ callee args => by simp only [forget, forget_forget d callee, forgetAll_forgetAll d args]
  | .await _ inner => by
    have hinner := forget_forget d inner
    by_cases h : d.awaits = true
    · simp only [forget, if_pos h, hinner]
    · simp only [forget, if_neg h, hinner]
  | .group _ inner => by
    have hinner := forget_forget d inner
    by_cases h : d.groups = true
    · simp only [forget, if_pos h, hinner]
    · simp only [forget, if_neg h, hinner]

theorem forgetAll_forgetAll (d : Details) : (es : List Expr) → forgetAll d (forgetAll d es) = forgetAll d es
  | [] => rfl
  | e :: rest => by simp only [forgetAll, forget_forget d e, forgetAll_forgetAll d rest]

end

end Expr

theorem Signature.forget_forget (d : Details) (s : Signature) : (s.forget d).forget d = s.forget d := by
  simp only [forget, List.map_map, d.type_type]
  have hparams : Param.forget d ∘ Param.forget d = Param.forget d := by
    funext p
    simp only [Function.comp, Param.forget, d.type_type]
  rw [hparams]

namespace Stmt

mutual

theorem forget_forget (d : Details) : (s : Stmt) → (s.forget d).forget d = s.forget d
  | .letDecl _ _ _ init => by simp only [forget, d.type_type, init.forget_forget d]
  | .fnDecl _ sig _ body => by simp only [forget, sig.forget_forget d, forgetAll_forgetAll d body]
  | .assign _ _ value => by simp only [forget, value.forget_forget d]
  | .cond _ test _ thenBody otherwise => by
    simp only [forget, test.forget_forget d, forgetAll_forgetAll d thenBody, forgetElse_forgetElse d otherwise]
  | .loop _ _ bounds _ body => by simp only [forget, bounds.forget_forget d, forgetAll_forgetAll d body]
  | .ret _ none => rfl
  | .ret _ (some x) => by simp only [forget, Option.map_some, x.forget_forget d]
  | .expr _ x => by simp only [forget, x.forget_forget d]
  | .block _ stmts => by simp only [forget, forgetAll_forgetAll d stmts]

theorem forgetAll_forgetAll (d : Details) : (ss : List Stmt) → forgetAll d (forgetAll d ss) = forgetAll d ss
  | [] => rfl
  | s :: rest => by simp only [forgetAll, forget_forget d s, forgetAll_forgetAll d rest]

theorem forgetElse_forgetElse (d : Details) : (o : Option Stmt) → forgetElse d (forgetElse d o) = forgetElse d o
  | none => rfl
  | some s => by simp only [forgetElse, forget_forget d s]

end

end Stmt

/-! ## Nothing but places -/

namespace Expr

mutual

/-- places do not matter for what is left -/
theorem forget_unplaced (d : Details) : (e : Expr) → e.unplaced.forget d = e.forget d
  | .number .. | .string .. | .ident .. => rfl
  | .binary _ _ left right => by simp only [unplaced, forget, forget_unplaced d left, forget_unplaced d right]
  | .range _ low high => by simp only [unplaced, forget, forget_unplaced d low, forget_unplaced d high]
  | .call _ callee args => by simp only [unplaced, forget, forget_unplaced d callee, forgetAll_unplaced d args]
  | .await _ inner | .group _ inner => by simp only [unplaced, forget, forget_unplaced d inner]

theorem forgetAll_unplaced (d : Details) : (es : List Expr) → forgetAll d (unplacedAll es) = forgetAll d es
  | [] => rfl
  | e :: rest => by simp only [unplacedAll, forgetAll, forget_unplaced d e, forgetAll_unplaced d rest]

end

mutual

theorem forget_places : (e : Expr) → e.forget .places = e.unplaced
  | .number .. | .string .. | .ident .. => rfl
  | .binary _ _ left right => by simp only [unplaced, forget, forget_places left, forget_places right]
  | .range _ low high => by simp only [unplaced, forget, forget_places low, forget_places high]
  | .call _ callee args => by simp only [unplaced, forget, forget_places callee, forgetAll_places args]
  | .await _ inner | .group _ inner => by simp [unplaced, forget, Details.places, ← forget_places inner]

theorem forgetAll_places : (es : List Expr) → forgetAll .places es = unplacedAll es
  | [] => rfl
  | e :: rest => by simp only [unplacedAll, forgetAll, forget_places e, forgetAll_places rest]

end

end Expr

theorem Signature.forget_places (s : Signature) : s.forget .places = s.unplaced := rfl

namespace Stmt

mutual

theorem forget_unplaced (d : Details) : (s : Stmt) → s.unplaced.forget d = s.forget d
  | .letDecl _ _ _ init => by simp only [unplaced, forget, Details.type_unplaced, Expr.forget_unplaced]
  | .assign _ _ value => by simp only [unplaced, forget, Expr.forget_unplaced]
  | .fnDecl _ _ _ body => by simp only [unplaced, forget, Signature.forget_unplaced, forgetAll_unplaced d body]
  | .cond _ _ _ thenBody otherwise => by
    simp only [unplaced, forget, Expr.forget_unplaced, forgetAll_unplaced d thenBody, forgetElse_unplaced d otherwise]
  | .loop _ _ _ _ body => by simp only [unplaced, forget, Expr.forget_unplaced, forgetAll_unplaced d body]
  | .ret _ none => rfl
  | .ret _ (some x) => by simp only [unplaced, forget, Option.map_some, Expr.forget_unplaced]
  | .expr _ x => by simp only [unplaced, forget, Expr.forget_unplaced]
  | .block _ stmts => by simp only [unplaced, forget, forgetAll_unplaced d stmts]

theorem forgetAll_unplaced (d : Details) : (ss : List Stmt) → forgetAll d (unplacedAll ss) = forgetAll d ss
  | [] => rfl
  | s :: rest => by simp only [unplacedAll, forgetAll, forget_unplaced d s, forgetAll_unplaced d rest]

theorem forgetElse_unplaced (d : Details) : (o : Option Stmt) → forgetElse d (unplacedElse o) = forgetElse d o
  | none => rfl
  | some s => by simp only [unplacedElse, forgetElse, forget_unplaced d s]

end

mutual

theorem forget_places : (s : Stmt) → s.forget .places = s.unplaced
  | .letDecl _ _ _ init => by simp only [unplaced, forget, Expr.forget_places]; rfl
  | .assign _ _ value => by simp only [unplaced, forget, Expr.forget_places]
  | .fnDecl _ _ _ body => by simp only [unplaced, forget, Signature.forget_places, forgetAll_places body]
  | .cond _ _ _ thenBody otherwise => by
    simp only [unplaced, forget, Expr.forget_places, forgetAll_places thenBody, forgetElse_places otherwise]
  | .loop _ _ _ _ body => by simp only [unplaced, forget, Expr.forget_places, forgetAll_places body]
  | .ret _ none => rfl
  | .ret _ (some x) => by simp only [unplaced, forget, Option.map_some, Expr.forget_places]
  | .expr _ x => by simp only [unplaced, forget, Expr.forget_places]
  | .block _ stmts => by simp only [unplaced, forget, forgetAll_places stmts]

theorem forgetAll_places : (ss : List Stmt) → forgetAll .places ss = unplacedAll ss
  | [] => rfl
  | s :: rest => by simp only [unplacedAll, forgetAll, forget_places s, forgetAll_places rest]

theorem forgetElse_places : (o : Option Stmt) → forgetElse .places o = unplacedElse o
  | none => rfl
  | some s => by simp only [unplacedElse, forgetElse, forget_places s]

end

end Stmt

end Ouroboros
