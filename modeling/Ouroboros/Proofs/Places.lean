/-
Trees up to places.

`unplaced` forgets all places of a tree. What a program says does not depend on places: tokens with the same plain forms
derive programs that differ in places only (`DerivesExpr.transfer`, `DerivesStmt.transfer`), and programs that differ in
places only have the same text (`render_unplaced`).
-/
import Mathlib.Logic.Basic
import Ouroboros.Program.Render
import Ouroboros.Proofs.Flatten

namespace Ouroboros

/-! ## Forgetting places -/

namespace Expr

mutual

/-- the expression at no place -/
def unplaced : Expr → Expr
  | .number _ value isInt spelling => .number .unknown value isInt spelling
  | .string _ value => .string .unknown value
  | .ident _ name => .ident .unknown name
  | .binary _ op left right => .binary .unknown op left.unplaced right.unplaced
  | .range _ low high => .range .unknown low.unplaced high.unplaced
  | .call _ callee args => .call .unknown callee.unplaced (unplacedAll args)
  | .await _ inner => .await .unknown inner.unplaced
  | .group _ inner => .group .unknown inner.unplaced

/-- expressions at no place -/
def unplacedAll : List Expr → List Expr
  | [] => []
  | e :: rest => e.unplaced :: unplacedAll rest

end

end Expr

/-- the type at no place -/
def TypeRef.unplaced (r : TypeRef) : TypeRef := { r with pos := .unknown }

/-- the parameter at no place -/
def Param.unplaced (p : Param) : Param := ⟨p.name, p.type.map TypeRef.unplaced, .unknown⟩

/-- the signature at no place -/
def Signature.unplaced (s : Signature) : Signature :=
  { s with params := s.params.map Param.unplaced, result := s.result.map TypeRef.unplaced }

namespace Stmt

mutual

/-- the statement at no place -/
def unplaced : Stmt → Stmt
  | .letDecl _ name type init => .letDecl .unknown name (type.map TypeRef.unplaced) init.unplaced
  | .assign _ name value => .assign .unknown name value.unplaced
  | .fnDecl _ sig _ body => .fnDecl .unknown sig.unplaced .unknown (unplacedAll body)
  | .cond _ test _ thenBody otherwise =>
    .cond .unknown test.unplaced .unknown (unplacedAll thenBody) (unplacedElse otherwise)
  | .loop _ var bounds _ body => .loop .unknown var bounds.unplaced .unknown (unplacedAll body)
  | .ret _ value => .ret .unknown (value.map Expr.unplaced)
  | .expr _ x => .expr .unknown x.unplaced
  | .block _ stmts => .block .unknown (unplacedAll stmts)

/-- statements at no place -/
def unplacedAll : List Stmt → List Stmt
  | [] => []
  | s :: rest => s.unplaced :: unplacedAll rest

/-- the end of a choice at no place -/
def unplacedElse : Option Stmt → Option Stmt
  | none => none
  | some s => some s.unplaced

end

end Stmt

/-! ## Tokens that differ in places only -/

namespace Token

variable {t u : Token} {ts us vs : List Token}

theorem kind_of_plain (h : t.plain = u.plain) : t.kind = u.kind :=
  (congrArg Token.kind h : t.plain.kind = u.plain.kind)

theorem literal_of_plain (h : t.plain = u.plain) : t.literal = u.literal :=
  (congrArg Token.literal h : t.plain.literal = u.plain.literal)

theorem value_of_plain (h : t.plain = u.plain) : t.value = u.value := by
  simp only [value, literal_of_plain h]

theorem payload_of_plain (h : t.plain = u.plain) : t.payload = u.payload := by
  simp only [payload, literal_of_plain h]

theorem lexeme_of_plain (h : t.plain = u.plain) (hk : u.kind ≠ .stringLiteral) : t.lexeme = u.lexeme := by
  have hlexeme := congrArg Token.lexeme h
  have hk' := kind_of_plain h
  simpa [plain, hk', hk] using hlexeme

theorem split_cons (h : us.map plain = (t :: vs).map plain) :
    ∃ u us', us = u :: us' ∧ u.plain = t.plain ∧ us'.map plain = vs.map plain :=
  List.map_eq_cons_iff.1 h

theorem split_append (h : us.map plain = (ts ++ vs).map plain) :
    ∃ us₁ us₂, us = us₁ ++ us₂ ∧ us₁.map plain = ts.map plain ∧ us₂.map plain = vs.map plain := by
  rw [List.map_append] at h
  exact List.map_eq_append_iff.1 h

/-- a word or a sign is found again with its kind -/
theorem split_word {k : TokenKind} (hk : t.kind = k) (h : us.map plain = (t :: vs).map plain) :
    ∃ u us', us = u :: us' ∧ u.kind = k ∧ us'.map plain = vs.map plain := by
  obtain ⟨u, us', rfl, hu, hus⟩ := split_cons h
  exact ⟨u, us', rfl, (kind_of_plain hu).trans hk, hus⟩

/-- a name is found again with its spelling -/
theorem split_name (hk : t.kind = .identifier) (h : us.map plain = (t :: vs).map plain) :
    ∃ u us', us = u :: us' ∧ u.kind = .identifier ∧ u.lexeme = t.lexeme ∧ us'.map plain = vs.map plain := by
  obtain ⟨u, us', rfl, hu, hus⟩ := split_cons h
  exact ⟨u, us', rfl, (kind_of_plain hu).trans hk, lexeme_of_plain hu (by rw [hk]; decide), hus⟩

theorem split_last {k : TokenKind} (hk : t.kind = k) (h : us.map plain = (ts ++ [t]).map plain) :
    ∃ us₁ u, us = us₁ ++ [u] ∧ us₁.map plain = ts.map plain ∧ u.kind = k := by
  obtain ⟨us₁, us₂, rfl, h₁, h₂⟩ := split_append h
  obtain ⟨u, us', rfl, hu, hus⟩ := split_word hk h₂
  obtain rfl : us' = [] := List.map_eq_nil_iff.1 hus
  exact ⟨us₁, u, rfl, h₁, hu⟩

end Token

namespace Grammar

open Token

/-- a tree of a sort at no place -/
def Phrase.unplaced : (s : Phrase) → s.Tree → s.Tree
  | .expr _, e => Expr.unplaced e
  | .items, es | .args, es => Expr.unplacedAll es

/-- **Expressions without places.** Tokens with the same plain forms derive the same expression, up to places. -/
theorem DerivesExpr.transfer {s : Phrase} {ts : List Token} {x : s.Tree} (h : DerivesExpr s ts x) {us : List Token}
    (hus : us.map plain = ts.map plain) : ∃ y, DerivesExpr s us y ∧ s.unplaced y = s.unplaced x := by
  induction h generalizing us with
  | tighter hl _ ih =>
    obtain ⟨y, hy, heq⟩ := ih hus
    exact ⟨y, .tighter hl hy, heq⟩
  | binary hl _ ht _ iha ihb =>
    obtain ⟨us₁, rest, rfl, h₁, hrest⟩ := split_append hus
    obtain ⟨u, us₂, rfl, hu, h₂⟩ := split_word rfl hrest
    obtain ⟨a, ha, heqa⟩ := iha h₁
    obtain ⟨b, hb, heqb⟩ := ihb h₂
    rw [← hu] at ht
    exact ⟨_, .binary hl ha ht hb, congrArg₂ (Expr.binary .unknown _) heqa heqb⟩
  | range _ ht _ iha ihb =>
    obtain ⟨us₁, rest, rfl, h₁, hrest⟩ := split_append hus
    obtain ⟨dots, us₂, rfl, hdots, h₂⟩ := split_word ht hrest
    obtain ⟨a, ha, heqa⟩ := iha h₁
    obtain ⟨b, hb, heqb⟩ := ihb h₂
    exact ⟨_, .range ha hdots hb, congrArg₂ (Expr.range .unknown) heqa heqb⟩
  | await ht _ ih =>
    obtain ⟨word, us, rfl, hword, hus⟩ := split_word ht hus
    obtain ⟨e, he, heq⟩ := ih hus
    exact ⟨_, .await hword he, congrArg (Expr.await .unknown) heq⟩
  | call _ ht _ hu ihf ihes =>
    obtain ⟨us₁, rest, rfl, h₁, hrest⟩ := split_append hus
    obtain ⟨left, rest, rfl, hleft, hrest⟩ := split_word ht hrest
    obtain ⟨us₂, right, rfl, h₂, hright⟩ := split_last hu hrest
    obtain ⟨f, hf, heqf⟩ := ihf h₁
    obtain ⟨es, hes, heqes⟩ := ihes h₂
    exact ⟨_, .call hf hleft hes hright, congrArg₂ (Expr.call .unknown) heqf heqes⟩
  | number ht =>
    obtain ⟨u, us, rfl, hu, hus⟩ := split_cons hus
    obtain rfl : us = [] := List.map_eq_nil_iff.1 hus
    have hlexeme := lexeme_of_plain hu (by rw [ht]; decide)
    rw [← kind_of_plain hu] at ht
    refine ⟨_, .number ht, ?_⟩
    simp only [Phrase.unplaced, Expr.unplaced, hlexeme, value_of_plain hu]
  | string ht =>
    obtain ⟨u, us, rfl, hu, hus⟩ := split_cons hus
    obtain rfl : us = [] := List.map_eq_nil_iff.1 hus
    rw [← kind_of_plain hu] at ht
    refine ⟨_, .string ht, ?_⟩
    simp only [Phrase.unplaced, Expr.unplaced, payload_of_plain hu]
  | ident ht =>
    obtain ⟨name, us, rfl, hname, hlexeme, hus⟩ := split_name ht hus
    obtain rfl : us = [] := List.map_eq_nil_iff.1 hus
    refine ⟨_, .ident hname, ?_⟩
    simp only [Phrase.unplaced, Expr.unplaced, hlexeme]
  | group ht _ hu ih =>
    obtain ⟨left, rest, rfl, hleft, hrest⟩ := split_word ht hus
    obtain ⟨us, right, rfl, hus, hright⟩ := split_last hu hrest
    obtain ⟨e, he, heq⟩ := ih hus
    exact ⟨_, .group hleft he hright, congrArg (Expr.group .unknown) heq⟩
  | one _ ih =>
    obtain ⟨e, he, heq⟩ := ih hus
    exact ⟨_, .one he, congrArg (· :: []) heq⟩
  | more _ ht _ ih ihes =>
    obtain ⟨us₁, rest, rfl, h₁, hrest⟩ := split_append hus
    obtain ⟨comma, us₂, rfl, hcomma, h₂⟩ := split_word ht hrest
    obtain ⟨e, he, heq⟩ := ih h₁
    obtain ⟨es, hes, heqs⟩ := ihes h₂
    exact ⟨_, .more he hcomma hes, congrArg₂ List.cons heq heqs⟩
  | noArgs =>
    obtain rfl : us = [] := List.map_eq_nil_iff.1 hus
    exact ⟨_, .noArgs, rfl⟩
  | args _ ih =>
    obtain ⟨es, hes, heq⟩ := ih hus
    exact ⟨es, .args hes, heq⟩

theorem Mark.transfer {word : TokenKind} {ts us : List Token} {b : Bool} (h : Mark word ts b)
    (hus : us.map plain = ts.map plain) : Mark word us b := by
  cases h with
  | absent =>
    rw [List.map_eq_nil_iff.1 hus]
    exact .absent
  | present ht =>
    obtain ⟨u, us, rfl, hu, hus⟩ := split_word ht hus
    rw [List.map_eq_nil_iff.1 hus]
    exact .present hu

/-- the text of a token that names a type can be read off its plain form -/
theorem typeRef_of_plain {t u : Token} (h : t.plain = u.plain)
    (hu : u.kind.isTypeWord = true ∨ u.kind = .identifier) : t.lexeme = u.lexeme := by
  refine lexeme_of_plain h ?_
  rintro hk
  rw [hk] at hu
  exact absurd hu (by decide)

theorem Ascription.transfer {sign : TokenKind} {ts us : List Token} {type : Option TypeRef} (h : Ascription sign ts type)
    (hus : us.map plain = ts.map plain) :
    ∃ type', Ascription sign us type' ∧ type'.map TypeRef.unplaced = type.map TypeRef.unplaced := by
  cases h with
  | absent =>
    rw [List.map_eq_nil_iff.1 hus]
    exact ⟨none, .absent, rfl⟩
  | present ht hu =>
    obtain ⟨v, rest, rfl, hv, hrest⟩ := split_word ht hus
    obtain ⟨w, rest, rfl, hw, hrest⟩ := split_cons hrest
    rw [List.map_eq_nil_iff.1 hrest]
    have hlexeme := typeRef_of_plain hw hu
    rw [← kind_of_plain hw] at hu
    refine ⟨_, .present hv hu, ?_⟩
    simp only [Option.map_some, TypeRef.unplaced, hlexeme]

theorem DerivesParam.transfer {ts us : List Token} {p : Param} (h : DerivesParam ts p)
    (hus : us.map plain = ts.map plain) : ∃ p', DerivesParam us p' ∧ p'.unplaced = p.unplaced := by
  cases h with
  | mk ht htype =>
    obtain ⟨name, us, rfl, hname, hlexeme, hus⟩ := split_name ht hus
    obtain ⟨type', htype', heq⟩ := htype.transfer hus
    refine ⟨_, .mk hname htype', ?_⟩
    simp only [Param.unplaced, heq, hlexeme]

theorem params_transfer {ts us : List Token} {ps : List Param} (h : Listed DerivesParam ts ps)
    (hus : us.map plain = ts.map plain) :
    ∃ ps', Listed DerivesParam us ps' ∧ ps'.map Param.unplaced = ps.map Param.unplaced := by
  cases h with
  | none =>
    rw [List.map_eq_nil_iff.1 hus]
    exact ⟨[], .none, rfl⟩
  | some h =>
    suffices hsep : ∃ ps', Separated DerivesParam us ps' ∧ ps'.map Param.unplaced = ps.map Param.unplaced by
      obtain ⟨ps', hps', heq⟩ := hsep
      exact ⟨ps', .some hps', heq⟩
    induction h generalizing us with
    | one h =>
      obtain ⟨p', hp', heq⟩ := h.transfer hus
      exact ⟨[p'], .one hp', congrArg (· :: []) heq⟩
    | more h ht _ ih =>
      obtain ⟨us₁, rest, rfl, h₁, hrest⟩ := split_append hus
      obtain ⟨comma, us₂, rfl, hcomma, h₂⟩ := split_word ht hrest
      obtain ⟨p', hp', heq⟩ := h.transfer h₁
      obtain ⟨ps', hps', heqs⟩ := ih h₂
      exact ⟨p' :: ps', .more hp' hcomma hps', congrArg₂ List.cons heq heqs⟩

/-- a tree of a sort at no place -/
def Clause.unplaced : (s : Clause) → s.Tree → s.Tree
  | .stmt, s => Stmt.unplaced s
  | .stmts, ss => Stmt.unplacedAll ss
  | .block, b => (.unknown, Stmt.unplacedAll b.2)
  | .otherwise, other => Stmt.unplacedElse other

/-- **Statements without places.** Tokens with the same plain forms derive the same statements, up to places. -/
theorem DerivesStmt.transfer {s : Clause} {ts : List Token} {x : s.Tree} (h : DerivesStmt s ts x) {us : List Token}
    (hus : us.map plain = ts.map plain) : ∃ y, DerivesStmt s us y ∧ s.unplaced y = s.unplaced x := by
  induction h generalizing us with
  | letDecl hword hname htype hsign hinit hsemi =>
    obtain ⟨word, rest, rfl, hword, hus⟩ := split_word hword hus
    obtain ⟨name, rest, rfl, hname, hlexeme, hus⟩ := split_name hname hus
    obtain ⟨us₁, rest, rfl, h₁, hus⟩ := split_append hus
    obtain ⟨sign, rest, rfl, hsign, hus⟩ := split_word hsign hus
    obtain ⟨us₂, semi, rfl, h₂, hsemi⟩ := split_last hsemi hus
    obtain ⟨type', htype', heqt⟩ := htype.transfer h₁
    obtain ⟨init', hinit', heqi⟩ := hinit.transfer h₂
    refine ⟨_, .letDecl hword hname htype' hsign hinit' hsemi, ?_⟩
    simp only [Phrase.unplaced] at heqi
    simp only [Clause.unplaced, Stmt.unplaced, hlexeme, heqt, heqi]
  | assign hname hsign hx hsemi =>
    obtain ⟨name, rest, rfl, hname, hlexeme, hus⟩ := split_name hname hus
    obtain ⟨sign, rest, rfl, hsign, hus⟩ := split_word hsign hus
    obtain ⟨us₂, semi, rfl, h₂, hsemi⟩ := split_last hsemi hus
    obtain ⟨x', hx', heqx⟩ := hx.transfer h₂
    refine ⟨_, .assign hname hsign hx' hsemi, ?_⟩
    simp only [Phrase.unplaced] at heqx
    simp only [Clause.unplaced, Stmt.unplaced, hlexeme, heqx]
  | fnDecl has hgs hword hname hleft hps hright hrs _ ih =>
    obtain ⟨as, rest, rfl, h₁, hus⟩ := split_append hus
    obtain ⟨gs, rest, rfl, h₂, hus⟩ := split_append hus
    obtain ⟨word, rest, rfl, hword, hus⟩ := split_word hword hus
    obtain ⟨name, rest, rfl, hname, hlexeme, hus⟩ := split_name hname hus
    obtain ⟨left, rest, rfl, hleft, hus⟩ := split_word hleft hus
    obtain ⟨ps, rest, rfl, h₃, hus⟩ := split_append hus
    obtain ⟨right, rest, rfl, hright, hus⟩ := split_word hright hus
    obtain ⟨rs, bs, rfl, h₄, h₅⟩ := split_append hus
    obtain ⟨ps', hps', heqp⟩ := params_transfer hps h₃
    obtain ⟨result', hrs', heqr⟩ := hrs.transfer h₄
    obtain ⟨⟨bodyPos, body⟩, hbs, heqb⟩ := ih h₅
    refine ⟨_, .fnDecl (has.transfer h₁) (hgs.transfer h₂) hword hname hleft hps' hright hrs' hbs, ?_⟩
    simp only [Clause.unplaced, Prod.mk.injEq, true_and] at heqb
    simp only [Clause.unplaced, Stmt.unplaced, Signature.unplaced, hlexeme, heqp, heqr, heqb]
  | cond hword hleft htest hright _ _ ihbs ihos =>
    obtain ⟨word, rest, rfl, hword, hus⟩ := split_word hword hus
    obtain ⟨left, rest, rfl, hleft, hus⟩ := split_word hleft hus
    obtain ⟨vs, rest, rfl, h₁, hus⟩ := split_append hus
    obtain ⟨right, rest, rfl, hright, hus⟩ := split_word hright hus
    obtain ⟨bs, os, rfl, h₂, h₃⟩ := split_append hus
    obtain ⟨test', htest', heqt⟩ := htest.transfer h₁
    obtain ⟨⟨thenPos, thenBody⟩, hbs, heqb⟩ := ihbs h₂
    obtain ⟨other, hos, heqo⟩ := ihos h₃
    refine ⟨_, .cond hword hleft htest' hright hbs hos, ?_⟩
    simp only [Phrase.unplaced] at heqt
    simp only [Clause.unplaced, Prod.mk.injEq, true_and] at heqb heqo
    simp only [Clause.unplaced, Stmt.unplaced, heqt, heqb, heqo]
  | loop hword hvar hin hbounds _ ih =>
    obtain ⟨word, rest, rfl, hword, hus⟩ := split_word hword hus
    obtain ⟨var, rest, rfl, hvar, hlexeme, hus⟩ := split_name hvar hus
    obtain ⟨inWord, rest, rfl, hin, hus⟩ := split_word hin hus
    obtain ⟨vs, bs, rfl, h₁, h₂⟩ := split_append hus
    obtain ⟨bounds', hbounds', heqx⟩ := hbounds.transfer h₁
    obtain ⟨⟨bodyPos, body⟩, hbs, heqb⟩ := ih h₂
    refine ⟨_, .loop hword hvar hin hbounds' hbs, ?_⟩
    simp only [Phrase.unplaced] at heqx
    simp only [Clause.unplaced, Prod.mk.injEq, true_and] at heqb
    simp only [Clause.unplaced, Stmt.unplaced, hlexeme, heqx, heqb]
  | retNone hword hsemi =>
    obtain ⟨word, rest, rfl, hword, hus⟩ := split_word hword hus
    obtain ⟨semi, rest, rfl, hsemi, hus⟩ := split_word hsemi hus
    obtain rfl : rest = [] := List.map_eq_nil_iff.1 hus
    exact ⟨_, .retNone hword hsemi, rfl⟩
  | retSome hword hx hsemi =>
    obtain ⟨word, rest, rfl, hword, hus⟩ := split_word hword hus
    obtain ⟨us₂, semi, rfl, h₂, hsemi⟩ := split_last hsemi hus
    obtain ⟨x', hx', heqx⟩ := hx.transfer h₂
    exact ⟨_, .retSome hword hx' hsemi, congrArg (fun x => Stmt.ret .unknown (some x)) heqx⟩
  | expr hx hsemi =>
    obtain ⟨us₂, semi, rfl, h₂, hsemi⟩ := split_last hsemi hus
    obtain ⟨x', hx', heqx⟩ := hx.transfer h₂
    exact ⟨_, .expr hx' hsemi, congrArg (Stmt.expr .unknown) heqx⟩
  | block _ ih =>
    obtain ⟨⟨pos, ss⟩, hss, heq⟩ := ih hus
    simp only [Clause.unplaced, Prod.mk.injEq, true_and] at heq
    exact ⟨_, .block hss, congrArg (Stmt.block .unknown) heq⟩
  | nil =>
    obtain rfl : us = [] := List.map_eq_nil_iff.1 hus
    exact ⟨_, .nil, rfl⟩
  | cons _ _ ih ihss =>
    obtain ⟨us₁, us₂, rfl, h₁, h₂⟩ := split_append hus
    obtain ⟨s', hs', heq⟩ := ih h₁
    obtain ⟨ss', hss', heqs⟩ := ihss h₂
    exact ⟨_, .cons hs' hss', congrArg₂ List.cons heq heqs⟩
  | braces hleft _ hright ih =>
    obtain ⟨left, rest, rfl, hleft, hus⟩ := split_word hleft hus
    obtain ⟨us, right, rfl, h₁, hright⟩ := split_last hright hus
    obtain ⟨ss', hss', heq⟩ := ih h₁
    exact ⟨_, .braces hleft hss' hright, congrArg (Prod.mk Pos.unknown) heq⟩
  | noElse =>
    obtain rfl : us = [] := List.map_eq_nil_iff.1 hus
    exact ⟨_, .noElse, rfl⟩
  | elseIf hword hfirst _ ih =>
    obtain ⟨word, rest, rfl, hword, hus⟩ := split_word hword hus
    obtain ⟨s', hs', heq⟩ := ih hus
    obtain ⟨first, rest, rfl, hfirst, -⟩ := split_word hfirst hus
    exact ⟨_, .elseIf hword hfirst hs', congrArg some heq⟩
  | elseBlock hword _ ih =>
    obtain ⟨word, rest, rfl, hword, hus⟩ := split_word hword hus
    obtain ⟨⟨pos, ss⟩, hss, heq⟩ := ih hus
    simp only [Clause.unplaced, Prod.mk.injEq, true_and] at heq
    exact ⟨_, .elseBlock hword hss, congrArg (fun ss => some (Stmt.block .unknown ss)) heq⟩

end Grammar

/-! ## Text and places -/

namespace Expr

theorem strength_unplaced (e : Expr) : e.unplaced.strength = e.strength := by
  cases e <;> rfl

theorem renderArgs_cons_cons (e e' : Expr) (rest : List Expr) :
    renderArgs (e :: e' :: rest) = e.render ++ text ", " ++ renderArgs (e' :: rest) := by
  rw [renderArgs]

mutual

theorem render_unplaced : (e : Expr) → e.unplaced.render = e.render
  | .number _ _ _ _ | .string _ _ | .ident _ _ => rfl
  | .binary _ _ left right => by
    simp only [unplaced, render, strength_unplaced, render_unplaced left, render_unplaced right]
  | .range _ low high => by
    simp only [unplaced, render, strength_unplaced, render_unplaced low, render_unplaced high]
  | .call _ callee args => by
    simp only [unplaced, render, strength_unplaced, render_unplaced callee, renderArgs_unplaced args]
  | .await _ inner => by simp only [unplaced, render, strength_unplaced, render_unplaced inner]
  | .group _ inner => by simp only [unplaced, render, render_unplaced inner]

theorem renderArgs_unplaced : (es : List Expr) → renderArgs (unplacedAll es) = renderArgs es
  | [] => rfl
  | [e] => render_unplaced e
  | e :: e' :: rest => by
    have hrest := renderArgs_unplaced (e' :: rest)
    rw [unplacedAll] at hrest
    rw [unplacedAll, unplacedAll, renderArgs_cons_cons, renderArgs_cons_cons, render_unplaced e, hrest]

end

end Expr

theorem TypeRef.renderAfter_unplaced (sign : Bytes) (type : Option TypeRef) :
    renderAfter sign (type.map TypeRef.unplaced) = renderAfter sign type := by
  cases type <;> rfl

theorem Param.render_unplaced (p : Param) : p.unplaced.render = p.render := by
  simp only [unplaced, render, TypeRef.renderAfter_unplaced]

theorem Signature.render_unplaced (s : Signature) : s.unplaced.render = s.render := by
  have hparams : (s.params.map Param.unplaced).map Param.render = s.params.map Param.render := by
    simp only [List.map_map]
    exact List.map_congr_left fun p _ => Param.render_unplaced p
  simp only [unplaced, render, TypeRef.renderAfter_unplaced, hparams]
  rfl

namespace Stmt

theorem isEmpty_unplacedAll (ss : List Stmt) : (unplacedAll ss).isEmpty = ss.isEmpty := by
  cases ss <;> rfl

mutual

theorem renderAt_unplaced (depth : Nat) : (s : Stmt) → renderAt depth s.unplaced = renderAt depth s
  | .letDecl _ _ _ init => by
    simp only [unplaced, renderAt, TypeRef.renderAfter_unplaced, Expr.render_unplaced]
  | .assign _ _ _ | .ret _ (some _) | .expr _ _ => by
    simp only [unplaced, renderAt, Option.map_some, Expr.render_unplaced]
  | .ret _ none => rfl
  | .fnDecl _ _ _ body => by
    simp only [unplaced, renderAt, Signature.render_unplaced, withBlock, isEmpty_unplacedAll,
      renderAll_unplaced (depth + 1) body]
  | .loop _ _ _ _ body => by
    simp only [unplaced, renderAt, Expr.render_unplaced, withBlock, isEmpty_unplacedAll,
      renderAll_unplaced (depth + 1) body]
  | .block _ stmts => by
    simp only [unplaced, renderAt, withBlock, isEmpty_unplacedAll, renderAll_unplaced (depth + 1) stmts]
  | .cond _ _ _ thenBody otherwise => by
    simp only [unplaced, renderAt, Expr.render_unplaced, renderAll_unplaced (depth + 1) thenBody,
      renderElse_unplaced depth otherwise]

theorem renderAll_unplaced (depth : Nat) : (ss : List Stmt) → renderAll depth (unplacedAll ss) = renderAll depth ss
  | [] => rfl
  | s :: rest => by
    simp only [unplacedAll, renderAll, renderAt_unplaced depth s, renderAll_unplaced depth rest]

theorem renderElse_unplaced (depth : Nat) : (o : Option Stmt) → renderElse depth (unplacedElse o) = renderElse depth o
  | none => rfl
  | some (.cond _ _ _ thenBody otherwise) => by
    simp only [unplacedElse, unplaced, renderElse, Expr.render_unplaced, renderAll_unplaced (depth + 1) thenBody,
      renderElse_unplaced depth otherwise]
  | some (.block _ stmts) => by
    simp only [unplacedElse, unplaced, renderElse, renderAll_unplaced (depth + 1) stmts]
  | some (.letDecl ..) | some (.assign ..) | some (.fnDecl ..) | some (.loop ..) | some (.ret _ none)
  | some (.ret _ (some _)) | some (.expr ..) => rfl

end

end Stmt

end Ouroboros
