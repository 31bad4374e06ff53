/-
The readers of expressions and statements read the phrases of the grammar.

Every reader is a function of the readers for what is nested in it, so each lemma here takes the languages of those and
gives the reader's own. An operator chain and a chain of calls are read as extensions of the operand already read
(`Extends`). The bounds on rounds and on nesting play no part: a reader that stops early has read a shorter phrase.

`exists_pass` says this of whole programs: without faults the tokens derive the program that is read, and when the first
fault only says that the tokens ended, spelled tokens behind them make a program.
-/
import Ouroboros.Proofs.Parsing.Language

namespace Ouroboros

namespace Parse

open Grammar

/-! ## Lists of items -/

theorem Reads.moreItems {α : Type} {L : Language α} {item : Reader α} (h : Reads L item) (n : Nat) :
    Reads (fun ts as => (ts = [] ∧ as = []) ∨ ∃ t us, ts = t :: us ∧ t.kind = .comma ∧ Separated L us as)
      (moreItems item n) := by
  induction n with
  | zero => exact (Reads.pure []).imp fun us as hus => Or.inl hus
  | succ n ih =>
    refine ⟨fun c hc => ?_, [], [], by simp, Or.inl ⟨rfl, rfl⟩⟩
    refine Spec.accept hc (by decide) (h.bind fun a => ih.bind fun as => Reads.pure _) ?_ ?_
    · exact Spec.pure.imp fun us as _ hus => Or.inl hus
    · rintro t _ _ ht ⟨us, _, a, rfl, ha, vs, _, as, rfl, has, rfl, rfl⟩
      refine Or.inr ⟨t, _, rfl, ht, ?_⟩
      rw [List.append_nil]
      rcases has with ⟨rfl, rfl⟩ | ⟨s, ws, rfl, hs, has⟩
      · rw [List.append_nil]
        exact .one ha
      · exact .more ha hs has

theorem Reads.items {α : Type} {L : Language α} {item : Reader α} (h : Reads L item) :
    Reads (Listed L) (items item) := by
  refine ⟨fun c hc => ?_, [], [], by simp, .none⟩
  rw [Parse.items, peekKind_bind]
  split
  · refine Spec.pure.imp ?_
    rintro _ _ - ⟨rfl, rfl⟩
    exact .none
  · refine ((h.bind fun a => Reads.remaining fun n => (h.moreItems n).bind fun as => Reads.pure _).spec c hc).imp ?_
    rintro _ _ - ⟨us, _, a, rfl, ha, vs, _, as, rfl, has, rfl, rfl⟩
    rw [List.append_nil]
    rcases has with ⟨rfl, rfl⟩ | ⟨s, ws, rfl, hs, has⟩
    · rw [List.append_nil]
      exact .some (.one ha)
    · exact .some (.more ha hs has)

/-! ## Expressions -/

/-- the tokens extend the expression `left` of the level to `e` -/
def Extends (l : Level) (left : Expr) : Language Expr :=
  fun ts e => ∀ us, DerivesExpr (.expr l) us left → DerivesExpr (.expr l) (us ++ ts) e

theorem Extends.nil (l : Level) (left : Expr) : Extends l left [] left :=
  fun us h => by rw [List.append_nil]; exact h

theorem Spec.pureExtends {l : Level} {left : Expr} {c : Cursor} :
    Spec (Extends l left) c ((Pure.pure left : Reader Expr) c) := by
  refine Spec.pure.imp ?_
  rintro _ _ - ⟨rfl, rfl⟩
  exact Extends.nil l _

/-- the operators that a reader knows at a level are those of the grammar -/
def Operators (l : Level) (op? : TokenKind → Option BinaryOp) : Prop :=
  ∀ k op, op? k = some op ↔ Operator l k op

theorem operators_product : Operators .multiplicative productOp? := by
  intro k op
  constructor
  · intro h
    unfold productOp? at h
    split at h <;> cases h
    · exact .star
    · exact .slash
  · rintro (_ | _ | _ | _ | _) <;> rfl

theorem operators_sum : Operators .additive sumOp? := by
  intro k op
  constructor
  · intro h
    unfold sumOp? at h
    split at h <;> cases h
    · exact .plus
    · exact .minus
  · rintro (_ | _ | _ | _ | _) <;> rfl

theorem operators_compare : Operators .comparison compareOp? := by
  intro k op
  constructor
  · intro h
    unfold compareOp? at h
    split at h
    · cases h
      exact .greater
    · cases h
  · rintro ⟨⟩
    rfl

theorem Reads.chainRest {l m : Level} {operand : Reader Expr} {op? : TokenKind → Option BinaryOp}
    (hl : l.next? = some m) (hop : Operators l op?) (h : Reads (DerivesExpr (.expr m)) operand) (n : Nat)
    (left : Expr) : Reads (Extends l left) (chainRest operand op? n left) := by
  induction n generalizing left with
  | zero => exact ⟨fun c _ => Spec.pureExtends, [], left, by simp, Extends.nil l left⟩
  | succ n ih =>
    refine ⟨fun c hc => ?_, [], left, by simp, Extends.nil l left⟩
    rw [Parse.chainRest, peekKind_bind]
    cases hk : op? c.peek.kind with
    | none => exact Spec.pureExtends
    | some op =>
      have hop' := (hop _ _).1 hk
      refine ((Spec.advance hop'.ne_end).bind hc fun t => h.bind fun b => ih _).imp ?_
      rintro _ e - ⟨_, _, t, rfl, ⟨rfl, rfl⟩, us, vs, b, rfl, hb, he⟩ ws hleft
      have := he _ (.binary hl hleft hop' hb)
      simpa using this

theorem Reads.chain {l m : Level} {operand : Reader Expr} {op? : TokenKind → Option BinaryOp}
    (hl : l.next? = some m) (hop : Operators l op?) (h : Reads (DerivesExpr (.expr m)) operand) :
    Reads (DerivesExpr (.expr l)) (chain operand op?) := by
  refine (h.bind fun left => Reads.remaining fun n => Reads.chainRest hl hop h n left).imp ?_
  rintro _ e ⟨us, vs, a, rfl, ha, he⟩
  exact he us (.tighter hl ha)

/-- what follows the first sum of a range, or of no range -/
def rangeRest (operand : Reader Expr) (low : Expr) : Reader Expr := do
  if (← peekKind) = .dots then
    let sign ← advance
    let high ← operand
    return .range sign.pos low high
  else
    return low

section Nested

variable {nested : Reader Expr} (h : Reads (DerivesExpr (.expr .comparison)) nested)

theorem derives_items {ts : List Token} {es : List Expr}
    (h : Separated (DerivesExpr (.expr .comparison)) ts es) : DerivesExpr .items ts es := by
  induction h with
  | one h => exact .one h
  | more h ht _ ih => exact .more h ht ih

theorem derives_args {ts : List Token} {es : List Expr} (h : Listed (DerivesExpr (.expr .comparison)) ts es) :
    DerivesExpr .args ts es := by
  cases h with
  | none => exact .noArgs
  | some h => exact .args (derives_items h)

theorem hasPhrase_primary : HasPhrase (DerivesExpr (.expr .primary)) :=
  ⟨[sampleName], _, by simpa using sampleName_isSpelled, .ident rfl⟩

include h

omit h in
theorem primary_apply (c : Cursor) : primary nested c = match c.peek.kind with
    | .number => (advance >>= fun _ =>
      pure (.number c.peek.pos c.peek.value (spellsInt c.peek.lexeme) c.peek.lexeme) : Reader Expr) c
    | .stringLiteral => (advance >>= fun _ => pure (.string c.peek.pos c.peek.payload) : Reader Expr) c
    | .identifier => (advance >>= fun _ => pure (.ident c.peek.pos c.peek.lexeme) : Reader Expr) c
    | .leftParen => (advance >>= fun _ => nested >>= fun inner => need .rightParen >>= fun _ =>
      pure (.group c.peek.pos inner) : Reader Expr) c
    | _ => (failAtToken c.peek .expectedExpression : Reader Expr) c := by
  unfold primary
  rw [peek_bind]
  cases c.peek.kind <;> rfl

theorem Reads.primary : Reads (DerivesExpr (.expr .primary)) (primary nested) := by
  refine ⟨fun c hc => ?_, hasPhrase_primary⟩
  rw [primary_apply]
  split
  · rename_i hk
    refine ((Spec.advance (by rw [hk]; decide)).bind hc fun _ => Reads.pure _).imp ?_
    rintro us e - ⟨_, _, t, rfl, ⟨rfl, rfl⟩, rfl, rfl⟩
    exact .number hk
  · rename_i hk
    refine ((Spec.advance (by rw [hk]; decide)).bind hc fun _ => Reads.pure _).imp ?_
    rintro us e - ⟨_, _, t, rfl, ⟨rfl, rfl⟩, rfl, rfl⟩
    exact .string hk
  · rename_i hk
    refine ((Spec.advance (by rw [hk]; decide)).bind hc fun _ => Reads.pure _).imp ?_
    rintro us e - ⟨_, _, t, rfl, ⟨rfl, rfl⟩, rfl, rfl⟩
    exact .ident hk
  · rename_i hk
    refine ((Spec.advance (by rw [hk]; decide)).bind hc fun _ => h.bind fun _ =>
      (Reads.needFixed (k := .rightParen) rfl).bind fun _ => Reads.pure _).imp ?_
    intro ts x _ hall
    obtain ⟨_, _, t, rfl, ⟨rfl, rfl⟩, hall⟩ := hall
    obtain ⟨us, _, e, rfl, he, hall⟩ := hall
    obtain ⟨_, _, u, rfl, ⟨rfl, hu⟩, rfl, rfl⟩ := hall
    exact .group hk he hu
  · exact Spec.failAtToken hc hasPhrase_primary fun _ => rfl

theorem Reads.callRest (n : Nat) (callee : Expr) : Reads (Extends .call callee) (callRest nested n callee) := by
  induction n generalizing callee with
  | zero => exact ⟨fun c _ => Spec.pureExtends, [], callee, by simp, Extends.nil _ callee⟩
  | succ n ih =>
    refine ⟨fun c hc => ?_, [], callee, by simp, Extends.nil _ callee⟩
    rw [Parse.callRest, peekKind_bind]
    split
    · rename_i hk
      refine ((Spec.advance (by rw [hk]; decide)).bind hc fun t => h.items.bind fun es =>
        (Reads.needFixed (k := .rightParen) rfl).bind fun _ => ih _).imp ?_
      intro ts e _ hall ws hcallee
      obtain ⟨_, _, t, rfl, ⟨rfl, rfl⟩, hall⟩ := hall
      obtain ⟨us, _, es, rfl, hes, hall⟩ := hall
      obtain ⟨_, vs, u, rfl, ⟨rfl, hu⟩, he⟩ := hall
      have := he _ (.call hcallee hk (derives_args hes) hu)
      simpa using this
    · exact Spec.pureExtends

theorem Reads.call : Reads (DerivesExpr (.expr .call)) (call nested) := by
  refine (Reads.bind (Reads.primary h) fun callee => Reads.remaining fun n => Reads.callRest h n callee).imp ?_
  rintro _ e ⟨us, vs, a, rfl, ha, he⟩
  exact he us (.tighter rfl ha)

theorem Reads.unary : Reads (DerivesExpr (.expr .unary)) (unary nested) := by
  have hcall := Reads.call h
  refine ⟨fun c hc => ?_, ?_⟩
  · rw [Parse.unary, peekKind_bind]
    split
    · rename_i hk
      refine ((Spec.advance (by rw [hk]; decide)).bind hc fun t => hcall.bind fun e => Reads.pure _).imp ?_
      rintro _ _ - ⟨_, _, t, rfl, ⟨rfl, rfl⟩, us, _, e, rfl, he, rfl, rfl⟩
      rw [List.append_nil]
      exact .await hk he
    · exact (hcall.spec c hc).imp fun us e _ he => .tighter rfl he
  · exact (hcall.imp fun us e he => .tighter rfl he : Reads (DerivesExpr (.expr .unary)) (Parse.call nested)).phrase

theorem Reads.product : Reads (DerivesExpr (.expr .multiplicative)) (product nested) :=
  Reads.chain rfl operators_product (Reads.unary h)

theorem Reads.sum : Reads (DerivesExpr (.expr .additive)) (sum nested) :=
  Reads.chain rfl operators_sum (Reads.product h)

omit h in
theorem span_eq : span nested = sum nested >>= rangeRest (sum nested) := rfl

/-- a range or a sum, given the sum in front -/
theorem Reads.rangeRest (low : Expr) :
    Reads (fun ts e => ∀ us, DerivesExpr (.expr .additive) us low → DerivesExpr (.expr .range) (us ++ ts) e)
      (rangeRest (Parse.sum nested) low) := by
  refine ⟨fun c hc => ?_, [], low, by simp, fun us hlow => by rw [List.append_nil]; exact .tighter rfl hlow⟩
  rw [Parse.rangeRest, peekKind_bind]
  split
  · rename_i hk
    refine ((Spec.advance (by rw [hk]; decide)).bind hc fun t => (Reads.sum h).bind fun high => Reads.pure _).imp ?_
    rintro _ _ - ⟨_, _, t, rfl, ⟨rfl, rfl⟩, us, _, e, rfl, he, rfl, rfl⟩ ws hlow
    rw [List.append_nil]
    exact .range hlow hk he
  · refine Spec.pure.imp ?_
    rintro _ _ - ⟨rfl, rfl⟩ us hlow
    rw [List.append_nil]
    exact .tighter rfl hlow

theorem Reads.span : Reads (DerivesExpr (.expr .range)) (span nested) := by
  refine ((Reads.sum h).bind fun low => Reads.rangeRest h low).imp ?_
  rintro _ e ⟨us, vs, a, rfl, ha, he⟩
  exact he us ha

theorem Reads.comparison : Reads (DerivesExpr (.expr .comparison)) (comparison nested) :=
  Reads.chain rfl operators_compare (Reads.span h)

end Nested

theorem hasPhrase_comparison : HasPhrase (DerivesExpr (.expr .comparison)) :=
  ⟨[sampleName], _, by simpa using sampleName_isSpelled,
    .tighter rfl (.tighter rfl (.tighter rfl (.tighter rfl (.tighter rfl (.tighter rfl (.ident rfl))))))⟩

theorem Reads.exprWithin (depth : Nat) : Reads (DerivesExpr (.expr .comparison)) (exprWithin depth) := by
  induction depth with
  | zero =>
    refine ⟨fun c hc => ?_, hasPhrase_comparison⟩
    rw [Parse.exprWithin, peek_bind]
    exact Spec.failAtToken hc hasPhrase_comparison fun _ => rfl
  | succ depth ih => exact Reads.comparison ih

theorem Reads.expr : Reads (DerivesExpr (.expr .comparison)) expr :=
  Reads.remaining fun n => Reads.exprWithin (n + 1)

/-! ## Parts of declarations -/

theorem Reads.typeRef : Reads (fun ts r => ∃ u : Token, ts = [u] ∧ (u.kind.isTypeWord = true ∨ u.kind = .identifier) ∧
    r = ⟨u.lexeme, u.pos⟩) typeRef := by
  have hphrase : HasPhrase fun ts r => ∃ u : Token, ts = [u] ∧ (u.kind.isTypeWord = true ∨ u.kind = .identifier) ∧
      r = (⟨u.lexeme, u.pos⟩ : TypeRef) :=
    ⟨[sampleName], _, by simpa using sampleName_isSpelled, sampleName, rfl, Or.inr rfl, rfl⟩
  refine ⟨fun c hc => ?_, hphrase⟩
  rw [Parse.typeRef, peek_bind]
  split
  · rename_i hk
    have hk' : c.peek.kind.isTypeWord = true ∨ c.peek.kind = .identifier := by simpa using hk
    have hne : c.peek.kind ≠ .endOfInput := by
      intro h
      rw [h] at hk'
      simp [TokenKind.isTypeWord] at hk'
    refine ((Spec.advance hne).bind hc fun _ => Reads.pure _).imp ?_
    rintro _ _ - ⟨_, _, t, rfl, ⟨rfl, rfl⟩, rfl, rfl⟩
    exact ⟨c.peek, rfl, hk', rfl⟩
  · exact Spec.failAtToken hc hphrase fun _ => rfl

theorem Reads.typeAfter (sign : TokenKind) (hne : sign ≠ .endOfInput) : Reads (Ascription sign) (typeAfter sign) := by
  refine ⟨fun c hc => ?_, [], none, by simp, .absent⟩
  refine Spec.accept hc hne (Reads.typeRef.bind fun r => Reads.pure _) ?_ ?_
  · refine Spec.pure.imp ?_
    rintro _ _ - ⟨rfl, rfl⟩
    exact .absent
  · rintro t _ _ ht ⟨_, _, r, rfl, ⟨u, rfl, hu, rfl⟩, rfl, rfl⟩
    exact .present ht hu

theorem Reads.param : Reads DerivesParam param := by
  refine (Reads.needName.bind fun t => (Reads.typeAfter .colon (by decide)).bind fun _ => Reads.pure _).imp ?_
  rintro _ _ ⟨_, _, t, rfl, ⟨rfl, ht⟩, us, _, type, rfl, hus, rfl, rfl⟩
  rw [List.append_nil]
  exact .mk ht hus

/-- a word that may be missing -/
theorem Reads.accept {k : TokenKind} (hne : k ≠ .endOfInput) : Reads (Mark k) (accept k) := by
  refine ⟨fun c hc => ?_, [], false, by simp, .absent⟩
  have h : Spec (Mark k) c ((Parse.accept k >>= fun b => Pure.pure b) c) := by
    refine Spec.accept hc hne (Reads.pure true) ?_ ?_
    · refine Spec.pure.imp ?_
      rintro _ _ - ⟨rfl, rfl⟩
      exact .absent
    · rintro t _ _ ht ⟨rfl, rfl⟩
      exact .present ht
  rwa [bind_pure] at h

/-! ## Statements -/

theorem hasPhrase_block : HasPhrase (DerivesStmt .block) := by
  refine ⟨[TokenKind.leftBrace.token, TokenKind.rightBrace.token], _, ?_, @DerivesStmt.braces _ _ [] _ rfl .nil rfl⟩
  simp only [List.mem_cons, List.not_mem_nil, or_false]
  rintro t (rfl | rfl) <;> exact .fixed rfl

theorem Spec.letDecl {c : Cursor} (hc : c.Proper) (hk : c.peek.kind = .letWord) :
    Spec (DerivesStmt .stmt) c (letDecl c) := by
  refine ((Spec.advance (by rw [hk]; decide)).bind hc fun word => Reads.needName.bind fun name =>
    (Reads.typeAfter .colon (by decide)).bind fun type => (Reads.needFixed (k := .equals) rfl).bind fun _ =>
    Reads.expr.bind fun init => (Reads.needFixed (k := .semicolon) rfl).bind fun _ => Reads.pure _).imp ?_
  intro ts s _ hall
  obtain ⟨_, _, word, rfl, ⟨rfl, rfl⟩, hall⟩ := hall
  obtain ⟨_, _, name, rfl, ⟨rfl, hname⟩, hall⟩ := hall
  obtain ⟨us, _, type, rfl, htype, hall⟩ := hall
  obtain ⟨_, _, sign, rfl, ⟨rfl, hsign⟩, hall⟩ := hall
  obtain ⟨vs, _, init, rfl, hinit, hall⟩ := hall
  obtain ⟨_, _, semi, rfl, ⟨rfl, hsemi⟩, rfl, rfl⟩ := hall
  exact .letDecl hk hname htype hsign hinit hsemi

/-- the two tokens in front of an assignment are its name and its sign -/
theorem assign_apply {c : Cursor} (h : startsAssign c = true) :
    c.peek.kind = .identifier ∧ assign c = (advance >>= fun name => need .equals >>= fun _ => expr >>= fun x =>
      need .semicolon >>= fun _ => pure (Stmt.assign name.pos name.lexeme x) : Reader Stmt) c := by
  obtain ⟨rest, finish, recorded⟩ := c
  match rest, h with
  | a :: b :: rest, h =>
    simp only [startsAssign, Bool.and_eq_true, decide_eq_true_eq] at h
    refine ⟨h.1, ?_⟩
    let f : Token → Reader Stmt := fun _ => expr >>= fun x => need .semicolon >>= fun _ =>
      pure (Stmt.assign a.pos a.lexeme x)
    exact (need_bind_cons h.2 f rest finish recorded).symm

theorem Spec.assign {c : Cursor} (hc : c.Proper) (h : startsAssign c = true) :
    Spec (DerivesStmt .stmt) c (assign c) := by
  obtain ⟨hk, happly⟩ := assign_apply h
  rw [happly]
  refine ((Spec.advance (by rw [hk]; decide)).bind hc fun name => (Reads.needFixed (k := .equals) rfl).bind fun _ =>
    Reads.expr.bind fun x => (Reads.needFixed (k := .semicolon) rfl).bind fun _ => Reads.pure _).imp ?_
  intro ts s _ hall
  obtain ⟨_, _, name, rfl, ⟨rfl, rfl⟩, hall⟩ := hall
  obtain ⟨_, _, sign, rfl, ⟨rfl, hsign⟩, hall⟩ := hall
  obtain ⟨vs, _, x, rfl, hx, hall⟩ := hall
  obtain ⟨_, _, semi, rfl, ⟨rfl, hsemi⟩, rfl, rfl⟩ := hall
  exact .assign hk hsign hx hsemi

/-- tokens that agree with those at hand start at the place of the next token -/
theorem placeOf_eq_peek {c : Cursor} (hne : c.peek.kind ≠ .endOfInput) {us : List Token} (hus : us ≠ [])
    (h : us <+: c.rest ∨ c.rest <+: us) : Token.placeOf us = c.peek.pos := by
  rw [Cursor.rest_of_peek hne] at h
  cases us with
  | nil => exact absurd rfl hus
  | cons u us =>
    rcases h with h | h
    · rw [(List.cons_prefix_cons.1 h).1]
      rfl
    · rw [← (List.cons_prefix_cons.1 h).1]
      rfl

theorem Spec.exprStmt {c : Cursor} (hc : c.Proper) (hne : c.peek.kind ≠ .endOfInput) :
    Spec (DerivesStmt .stmt) c (exprStmt c) := by
  rw [Parse.exprStmt, peek_bind]
  refine ((Reads.expr.bind fun x => (Reads.needFixed (k := .semicolon) rfl).bind fun _ => Reads.pure _).spec c hc).imp ?_
  rintro _ _ hcmp ⟨vs, _, x, rfl, hx, _, _, semi, rfl, ⟨rfl, hsemi⟩, rfl, rfl⟩
  obtain ⟨t, us, rfl, -⟩ := hx.head
  rw [← placeOf_eq_peek hne (by simp) hcmp]
  exact .expr hx hsemi

/-- what follows the word `return` -/
def retRest (word : Token) : Reader Stmt := do
  if (← peekKind) = .semicolon then
    let _ ← advance
    return .ret word.pos none
  else
    let value ← expr
    let _ ← need .semicolon
    return .ret word.pos (some value)

theorem ret_eq : ret = advance >>= retRest := rfl

theorem Reads.retRest (word : Token) : Reads (fun ts s => ∀ w : Token, w.kind = .returnWord → w.pos = word.pos →
    DerivesStmt .stmt (w :: ts) s) (retRest word) := by
  refine ⟨fun c hc => ?_, [TokenKind.semicolon.token], Stmt.ret word.pos none, ?_, ?_⟩
  case refine_2 =>
    intro t ht
    rw [List.mem_singleton.1 ht]
    exact .fixed rfl
  case refine_3 =>
    intro w hw hpos
    rw [← hpos]
    exact .retNone hw rfl
  rw [Parse.retRest, peekKind_bind]
  split
  · rename_i hk
    refine ((Spec.advance (by rw [hk]; decide)).bind hc fun _ => Reads.pure _).imp ?_
    rintro _ _ - ⟨_, _, t, rfl, ⟨rfl, rfl⟩, rfl, rfl⟩ w hw hpos
    rw [← hpos]
    exact .retNone hw hk
  · refine ((Reads.expr.bind fun x => (Reads.needFixed (k := .semicolon) rfl).bind fun _ =>
      Reads.pure _).spec c hc).imp ?_
    rintro _ _ - ⟨vs, _, x, rfl, hx, _, _, semi, rfl, ⟨rfl, hsemi⟩, rfl, rfl⟩ w hw hpos
    rw [← hpos]
    exact .retSome hw hx hsemi

theorem Spec.ret {c : Cursor} (hc : c.Proper) (hk : c.peek.kind = .returnWord) :
    Spec (DerivesStmt .stmt) c (ret c) := by
  rw [ret_eq]
  refine ((Spec.advance (by rw [hk]; decide)).bind hc Reads.retRest).imp ?_
  rintro _ _ - ⟨_, us, word, rfl, ⟨rfl, rfl⟩, hs⟩
  exact hs _ hk rfl

/-- what follows the first block of a choice; `mk` makes the choice of it -/
def elseArm (inner : Reader Stmt) (mk : Option Stmt → Stmt) : Reader Stmt := do
  if ← accept .elseWord then
    let other ← otherwise inner
    return mk (some other)
  else
    return mk none

section Inner

variable {inner : Reader Stmt} (h : Reads (DerivesStmt .stmt) inner)

include h

/-- faults inside a block are recorded, unless the tokens ended -/
theorem Reads.blockBody (n : Nat) : Reads (DerivesStmt .stmts) (blockBody inner n) := by
  induction n with
  | zero =>
    refine (Reads.pure []).imp ?_
    rintro _ _ ⟨rfl, rfl⟩
    exact .nil
  | succ n ih =>
    refine ⟨fun c hc => ?_, [], [], by simp, .nil⟩
    rw [Parse.blockBody, peekKind_bind]
    split
    · refine Spec.pure.imp ?_
      rintro _ _ - ⟨rfl, rfl⟩
      exact .nil
    · rename_i hk
      rw [remaining_bind, attempt_bind_apply]
      have hrest : c.rest ≠ [] := fun hnil => hk (Or.inr (hc.peek_kind.2 hnil))
      have hs := h.spec c hc
      rcases hr : inner c with ⟨e | s, d⟩ <;> rw [hr] at hs
      · -- a fault in a statement of the block
        dsimp only
        split
        · rename_i hi
          refine ⟨hs.leads, fun a ha => by simp [Action.fail] at ha, ?_, ?_, ?_, fun hnil => absurd hnil hrest⟩ <;>
            intro e' he' <;> obtain rfl : e = e' := by simpa [Action.fail] using he'
          · exact hs.blames e rfl
          · exact hs.place e rfl
          · intro _ hrec
            obtain ⟨ts, s, hts, hL⟩ := hs.mend e rfl hi hrec
            refine ⟨ts, [s], hts, ?_⟩
            have := DerivesStmt.cons hL .nil
            rwa [List.append_nil] at this
        · rename_i hi
          have hi' : e.incomplete = false := by simpa using hi
          rw [Action.bind_apply, recover_apply]
          have hl := hs.leads.recover c.rest.length hi' (hs.blames e rfl)
          refine Spec.afterFault hl hrest ?_ (ih.spec _ (hl.proper hc))
          obtain ⟨new, hnew, -⟩ := hs.leads.recorded
          dsimp only at hnew ⊢
          simp [hnew]
      · -- a statement, and the rest of the block behind it
        have hb : Spec (Seq (DerivesStmt .stmt) fun s => Seq (DerivesStmt .stmts) fun ss => Nothing (s :: ss)) c
            ((inner >>= fun s => Parse.blockBody inner n >>= fun ss => Pure.pure (s :: ss)) c) :=
          (h.spec c hc).bind hc fun s => ih.bind fun ss => Reads.pure _
        rw [Action.bind_apply, hr] at hb
        refine hb.imp ?_
        rintro _ _ - ⟨us, _, s, rfl, hs, vs, _, ss, rfl, hss, rfl, rfl⟩
        rw [List.append_nil]
        exact .cons hs hss

theorem Reads.block : Reads (DerivesStmt .block) (block inner) := by
  refine ((Reads.needFixed (k := .leftBrace) rfl).bind fun left => Reads.remaining fun n =>
    (Reads.blockBody h n).bind fun ss => (Reads.needFixed (k := .rightBrace) rfl).bind fun _ => Reads.pure _).imp ?_
  intro ts b hall
  obtain ⟨_, _, left, rfl, ⟨rfl, hleft⟩, hall⟩ := hall
  obtain ⟨us, _, ss, rfl, hss, hall⟩ := hall
  obtain ⟨_, _, right, rfl, ⟨rfl, hright⟩, rfl, rfl⟩ := hall
  exact .braces hleft hss hright

theorem Spec.fnDecl {c : Cursor} (hc : c.Proper) (hne : c.peek.kind ≠ .endOfInput) :
    Spec (DerivesStmt .stmt) c (fnDecl inner c) := by
  rw [Parse.fnDecl, peek_bind]
  refine (((Reads.accept (k := .asyncWord) (by decide)).bind fun isAsync =>
    (Reads.accept (k := .gpuWord) (by decide)).bind fun isGpu => (Reads.needFixed (k := .fnWord) rfl).bind fun _ =>
    Reads.needName.bind fun name => (Reads.needFixed (k := .leftParen) rfl).bind fun _ =>
    Reads.param.items.bind fun params => (Reads.needFixed (k := .rightParen) rfl).bind fun _ =>
    (Reads.typeAfter .arrow (by decide)).bind fun result => (Reads.block h).bind fun body =>
    Reads.pure _).spec c hc).imp ?_
  intro ts s hcmp hall
  obtain ⟨as, _, isAsync, rfl, has, hall⟩ := hall
  obtain ⟨gs, _, isGpu, rfl, hgs, hall⟩ := hall
  obtain ⟨_, _, word, rfl, ⟨rfl, hword⟩, hall⟩ := hall
  obtain ⟨_, _, name, rfl, ⟨rfl, hname⟩, hall⟩ := hall
  obtain ⟨_, _, left, rfl, ⟨rfl, hleft⟩, hall⟩ := hall
  obtain ⟨ps, _, params, rfl, hps, hall⟩ := hall
  obtain ⟨_, _, right, rfl, ⟨rfl, hright⟩, hall⟩ := hall
  obtain ⟨rs, _, result, rfl, hrs, hall⟩ := hall
  obtain ⟨bs, _, ⟨bodyPos, body⟩, rfl, hbs, rfl, rfl⟩ := hall
  have hplace : Token.placeOf (as ++ (gs ++ [word])) = c.peek.pos := by
    rw [← placeOf_eq_peek hne (by cases has <;> cases hgs <;> simp) hcmp]
    cases has <;> cases hgs <;> rfl
  rw [← hplace, List.append_nil]
  have := DerivesStmt.fnDecl has hgs hword hname hleft hps hright hrs hbs
  exact this

/-- what is read behind `else` -/
theorem Reads.otherwise : Reads (fun ts s => ∀ word : Token, word.kind = .elseWord →
    DerivesStmt .otherwise (word :: ts) (some s)) (otherwise inner) := by
  have hblock := Reads.block h
  refine ⟨fun c hc => ?_, ?_⟩
  · rw [Parse.otherwise, peekKind_bind]
    split
    · rename_i hk
      refine (h.spec c hc).imp ?_
      intro us s hcmp hs word hword
      -- the tokens read start with the word that was seen
      obtain ⟨first, ts, rfl, -⟩ := hs.head
      rw [Cursor.rest_of_peek (by rw [hk]; decide)] at hcmp
      have hfirst : first = c.peek := by
        rcases hcmp with hcmp | hcmp
        · exact (List.cons_prefix_cons.1 hcmp).1
        · exact (List.cons_prefix_cons.1 hcmp).1.symm
      exact .elseIf hword (by rw [hfirst]; exact hk) hs
    · refine ((hblock.bind fun _ => Reads.pure _).spec c hc).imp ?_
      rintro _ _ - ⟨us, _, ⟨pos, ss⟩, rfl, hss, rfl, rfl⟩ word hword
      rw [List.append_nil]
      exact .elseBlock hword hss
  · obtain ⟨ts, ⟨pos, ss⟩, hts, hss⟩ := hasPhrase_block
    exact ⟨ts, _, hts, fun word hword => .elseBlock hword hss⟩

theorem Reads.elseArm (mk : Option Stmt → Stmt) :
    Reads (fun ts s => ∃ other, DerivesStmt .otherwise ts other ∧ s = mk other) (elseArm inner mk) := by
  refine ⟨fun c hc => ?_, [], _, by simp, none, .noElse, rfl⟩
  refine Spec.accept hc (by decide) ((Reads.otherwise h).bind fun other => Reads.pure _) ?_ ?_
  · refine Spec.pure.imp ?_
    rintro _ _ - ⟨rfl, rfl⟩
    exact ⟨none, .noElse, rfl⟩
  · rintro t _ _ ht ⟨us, _, other, rfl, hother, rfl, rfl⟩
    rw [List.append_nil]
    exact ⟨some other, hother t ht, rfl⟩

theorem Spec.cond {c : Cursor} (hc : c.Proper) (hk : c.peek.kind = .ifWord) :
    Spec (DerivesStmt .stmt) c (cond inner c) := by
  refine ((Spec.advance (by rw [hk]; decide)).bind hc fun word => (Reads.needFixed (k := .leftParen) rfl).bind fun _ =>
    Reads.expr.bind fun test => (Reads.needFixed (k := .rightParen) rfl).bind fun _ =>
    (Reads.block h).bind fun b => Reads.elseArm h (Stmt.cond word.pos test b.1 b.2)).imp ?_
  intro ts s _ hall
  obtain ⟨_, _, word, rfl, ⟨rfl, rfl⟩, hall⟩ := hall
  obtain ⟨_, _, left, rfl, ⟨rfl, hleft⟩, hall⟩ := hall
  obtain ⟨vs, _, test, rfl, htest, hall⟩ := hall
  obtain ⟨_, _, right, rfl, ⟨rfl, hright⟩, hall⟩ := hall
  obtain ⟨bs, os, ⟨thenPos, thenBody⟩, rfl, hbs, other, hos, rfl⟩ := hall
  have := DerivesStmt.cond hk hleft htest hright hbs hos
  exact this

theorem Spec.loop {c : Cursor} (hc : c.Proper) (hk : c.peek.kind = .forWord) :
    Spec (DerivesStmt .stmt) c (loop inner c) := by
  refine ((Spec.advance (by rw [hk]; decide)).bind hc fun word => Reads.needName.bind fun var =>
    (Reads.needFixed (k := .inWord) rfl).bind fun _ => Reads.expr.bind fun bounds =>
    (Reads.block h).bind fun _ => Reads.pure _).imp ?_
  intro ts s _ hall
  obtain ⟨_, _, word, rfl, ⟨rfl, rfl⟩, hall⟩ := hall
  obtain ⟨_, _, var, rfl, ⟨rfl, hvar⟩, hall⟩ := hall
  obtain ⟨_, _, sign, rfl, ⟨rfl, hin⟩, hall⟩ := hall
  obtain ⟨vs, _, bounds, rfl, hbounds, hall⟩ := hall
  obtain ⟨bs, _, ⟨bodyPos, body⟩, rfl, hbs, rfl, rfl⟩ := hall
  rw [List.append_nil]
  have := DerivesStmt.loop hk hvar hin hbounds hbs
  exact this

omit h in
theorem hasPhrase_stmt : HasPhrase (DerivesStmt .stmt) := by
  obtain ⟨ts, ⟨pos, ss⟩, hts, hss⟩ := hasPhrase_block
  exact ⟨ts, _, hts, .block hss⟩

omit h in
theorem statementWith_apply (c : Cursor) : statementWith inner c = match c.peek.kind with
    | .letWord => letDecl c
    | .fnWord | .asyncWord | .gpuWord => fnDecl inner c
    | .ifWord => cond inner c
    | .forWord => loop inner c
    | .returnWord => ret c
    | .leftBrace => (block inner >>= fun b => pure (.block b.1 b.2) : Reader Stmt) c
    | _ => (if startsAssign c = true then assign else if c.peek.kind.startsExpression = true then exprStmt
        else failAtToken c.peek .expectedStatement : Reader Stmt) c := by
  unfold statementWith
  rw [peek_bind]
  cases c.peek.kind <;> rfl

theorem Reads.statementWith : Reads (DerivesStmt .stmt) (statementWith inner) := by
  refine ⟨fun c hc => ?_, hasPhrase_stmt⟩
  rw [statementWith_apply]
  split
  · rename_i hk
    exact Spec.letDecl hc hk
  · rename_i hk
    exact Spec.fnDecl h hc (by rw [hk]; decide)
  · rename_i hk
    exact Spec.fnDecl h hc (by rw [hk]; decide)
  · rename_i hk
    exact Spec.fnDecl h hc (by rw [hk]; decide)
  · rename_i hk
    exact Spec.cond h hc hk
  · rename_i hk
    exact Spec.loop h hc hk
  · rename_i hk
    exact Spec.ret hc hk
  · refine (((Reads.block h).bind fun _ => Reads.pure _).spec c hc).imp ?_
    rintro _ _ - ⟨us, _, ⟨pos, ss⟩, rfl, hss, rfl, rfl⟩
    rw [List.append_nil]
    exact .block hss
  · split
    · rename_i hassign
      exact Spec.assign hc hassign
    · split
      · rename_i hstart
        refine Spec.exprStmt hc ?_
        intro hk
        rw [hk] at hstart
        exact absurd hstart (by decide)
      · exact Spec.failAtToken hc hasPhrase_stmt fun _ => rfl

end Inner

theorem Reads.statementWithin (depth : Nat) : Reads (DerivesStmt .stmt) (statementWithin depth) := by
  induction depth with
  | zero =>
    refine ⟨fun c hc => ?_, hasPhrase_stmt⟩
    rw [Parse.statementWithin, peek_bind]
    exact Spec.failAtToken hc hasPhrase_stmt fun _ => rfl
  | succ depth ih => exact Reads.statementWith ih

theorem Reads.statement : Reads (DerivesStmt .stmt) statement :=
  Reads.remaining fun n => Reads.statementWithin (n + 1)

/-! ## Programs -/

/-- what one pass over the tokens of a program gives: statements, the cursor behind them and the faults `new` -/
structure Pass (rounds : Nat) (c : Cursor) (stmts : List Stmt) (d : Cursor) (new : List Diagnostic) : Prop where
  run : statements rounds c = (.ok stmts, d)
  recorded : d.recorded = c.recorded ++ new
  blames : ∀ e ∈ new, c.Blames e
  place : ∀ e ∈ new, e.incomplete = true → e.pos = c.finish
  sound : new = [] → c.rest.length ≤ rounds → Derives c.rest stmts
  mend : ∀ e, new.head? = some e → e.incomplete = true →
    ∃ ts ss, (∀ t ∈ ts, t.IsSpelled) ∧ Derives (c.rest ++ ts) ss

theorem statements_nil {n : Nat} {c : Cursor} (h : c.rest = []) : statements n c = (.ok [], c) := by
  cases n with
  | zero => rfl
  | succ n =>
    rw [Parse.statements, remaining_bind, h]
    rfl

/-- a statement, and the statements behind it -/
theorem statements_ok {n : Nat} {c d : Cursor} {s : Stmt} (hne : c.rest ≠ []) (h : statement c = (.ok s, d)) :
    statements (n + 1) c = (statements n >>= fun ss => pure (s :: ss) : Reader (List Stmt)) d := by
  rw [Parse.statements, remaining_bind, if_neg (by simpa using hne), attempt_bind_apply, h]

/-- a fault, and the statements behind it -/
theorem statements_error {n : Nat} {c d : Cursor} {e : Diagnostic} (hne : c.rest ≠ [])
    (h : statement c = (.error e, d)) : statements (n + 1) c =
      statements n { d with rest := resume c.rest.length d.rest, recorded := d.recorded ++ [e] } := by
  rw [Parse.statements, remaining_bind, if_neg (by simpa using hne), attempt_bind_apply, h]
  rfl

/-- behind a statement that recorded nothing, a pass goes on as if it started there -/
theorem Pass.ok {n : Nat} {c d d' : Cursor} {s : Stmt} {ss : List Stmt} {new₁ new₂ : List Diagnostic}
    (hspec : Spec (DerivesStmt .stmt) c (.ok s, d)) (hne : c.rest ≠ []) (h : statement c = (.ok s, d))
    (hnew₁ : d.recorded = c.recorded ++ new₁) (hard : ∀ e ∈ new₁, e.incomplete = false ∧ c.Blames e)
    (hpass : Pass n d ss d' new₂) : Pass (n + 1) c (s :: ss) d' (new₁ ++ new₂) where
  run := by
    rw [statements_ok hne h, Action.bind_apply, hpass.run]
    rfl
  recorded := by rw [hpass.recorded, hnew₁, List.append_assoc]
  blames e he := by
    rcases List.mem_append.1 he with he | he
    · exact (hard e he).2
    · exact (hpass.blames e he).mono hspec.leads.rest hspec.leads.finish
  place e he hi := by
    rcases List.mem_append.1 he with he | he
    · rw [(hard e he).1] at hi
      exact absurd hi (by decide)
    · rw [hpass.place e he hi]
      exact hspec.leads.finish
  sound hnew hlen := by
    obtain ⟨rfl, rfl⟩ := List.append_eq_nil_iff.1 hnew
    obtain ⟨us, hus, hs⟩ := hspec.ok s rfl (by rw [hnew₁, List.append_nil])
    obtain ⟨t, ts, rfl, -⟩ := hs.head
    have hrest : c.rest.length = (t :: ts).length + d.rest.length := by rw [hus, List.length_append]
    rw [List.length_cons] at hrest
    rw [hus]
    exact .cons hs (hpass.sound rfl (by omega))
  mend e he hi := by
    cases new₁ with
    | cons e' new₁ =>
      obtain rfl : e' = e := by simpa using he
      rw [(hard e' List.mem_cons_self).1] at hi
      exact absurd hi (by decide)
    | nil =>
      obtain ⟨us, hus, hs⟩ := hspec.ok s rfl (by rw [hnew₁, List.append_nil])
      obtain ⟨ts, ss, hts, hss⟩ := hpass.mend e he hi
      refine ⟨ts, s :: ss, hts, ?_⟩
      rw [hus, List.append_assoc]
      exact .cons hs hss

/-- a statement in error is recorded behind the faults inside it -/
theorem Pass.error {n : Nat} {c d d' : Cursor} {e : Diagnostic} {ss : List Stmt} {new₁ new₂ : List Diagnostic}
    (hspec : Spec (DerivesStmt .stmt) c (.error e, d)) (hne : c.rest ≠ []) (h : statement c = (.error e, d))
    (hnew₁ : d.recorded = c.recorded ++ new₁) (hard : ∀ e ∈ new₁, e.incomplete = false ∧ c.Blames e)
    (hpass : Pass n { d with rest := resume c.rest.length d.rest, recorded := d.recorded ++ [e] } ss d' new₂) :
    Pass (n + 1) c ss d' (new₁ ++ e :: new₂) where
  run := by rw [statements_error hne h, hpass.run]
  recorded := by rw [hpass.recorded, hnew₁, List.append_assoc, List.append_assoc, List.singleton_append]
  blames e' he := by
    simp only [List.mem_append, List.mem_cons] at he
    rcases he with he | rfl | he
    · exact (hard e' he).2
    · exact hspec.blames e' rfl
    · exact (hpass.blames e' he).mono ((resume_suffix _ _).trans hspec.leads.rest) hspec.leads.finish
  place e' he hi := by
    simp only [List.mem_append, List.mem_cons] at he
    rcases he with he | rfl | he
    · rw [(hard e' he).1] at hi
      exact absurd hi (by decide)
    · exact hspec.place e' rfl hi
    · rw [hpass.place e' he hi]
      exact hspec.leads.finish
  sound hnew := by simp at hnew
  mend e' he hi := by
    cases new₁ with
    | cons x new₁ =>
      obtain rfl : x = e' := by simpa using he
      rw [(hard x List.mem_cons_self).1] at hi
      exact absurd hi (by decide)
    | nil =>
      obtain rfl : e = e' := by simpa using he
      obtain ⟨ts, s, hts, hs⟩ := hspec.mend e rfl hi (by rw [hnew₁, List.append_nil])
      refine ⟨ts, [s], hts, ?_⟩
      have := DerivesStmt.cons hs .nil
      rwa [List.append_nil] at this

/-- **One pass.** Every pass gives statements. Without faults the tokens derive them; when the first fault says that the
tokens ended, spelled tokens behind them complete a program. -/
theorem exists_pass (n : Nat) (c : Cursor) (hc : c.Proper) : ∃ stmts d new, Pass n c stmts d new := by
  induction n generalizing c with
  | zero =>
    refine ⟨[], c, [], rfl, (List.append_nil _).symm, by simp, by simp, fun _ hlen => ?_, by simp⟩
    rw [List.length_eq_zero_iff.1 (Nat.le_zero.1 hlen)]
    exact .nil
  | succ n ih =>
    by_cases hrest : c.rest = []
    · refine ⟨[], c, [], statements_nil hrest, (List.append_nil _).symm, by simp, by simp, fun _ _ => ?_, by simp⟩
      rw [hrest]
      exact .nil
    have hspec := Reads.statement.spec c hc
    rcases hr : statement c with ⟨e | s, d⟩ <;> rw [hr] at hspec <;> obtain ⟨new₁, hnew₁, hard⟩ := hspec.leads.recorded
    · have hl : c.Leads { d with rest := resume c.rest.length d.rest } :=
        hspec.leads.trans ⟨resume_suffix _ _, rfl, [], (List.append_nil _).symm, by simp⟩
      obtain ⟨ss, d', new₂, hpass⟩ :=
        ih { d with rest := resume c.rest.length d.rest, recorded := d.recorded ++ [e] } (hl.proper hc)
      exact ⟨ss, d', _, hpass.error hspec hrest hr hnew₁ hard⟩
    · obtain ⟨ss, d', new₂, hpass⟩ := ih d (hspec.leads.proper hc)
      exact ⟨s :: ss, d', _, hpass.ok hspec hrest hr hnew₁ hard⟩

end Parse

end Ouroboros
