/-
Every program of the grammar is read, and every start of a program is read to its end.

`statements_derives` and `statements_start` say this of programs, by induction on derivations: in front of what can
follow it, a statement is read as its tree, and on a start of a statement reading runs out of tokens.
-/
import Ouroboros.Proofs.Parsing.Expressions

namespace Ouroboros

namespace Parse

open Grammar

/-! ## Parts of statements -/

section Parts

variable {P : TokenKind → Prop} {n : Nat} {ts us : List Token}

theorem Completes.expr {e : Expr} (h : DerivesExpr (.expr .comparison) ts e) : Completes (Below 1) n ts e expr :=
  Completes.remaining fun k => ((understood_of_derives h).comparison k).mono (Nat.min_le_right n k)

/-- an expression in front of something that cannot continue it -/
theorem Completes.exprThen {e : Expr} {α : Type} {a : α} {f : Expr → Reader α} [∀ e, Idle (f e)]
    (h : DerivesExpr (.expr .comparison) ts e) {t : Token} (ht : binds t.kind < 1)
    (hf : Completes P n (t :: us) a (f e)) (hP : ∃ k, P k) : Completes P n (ts ++ t :: us) a (Parse.expr >>= f) :=
  (Completes.expr h).bind hf (fun _ _ => ht) hP

/-- a word that may be missing, in front of something else -/
theorem Completes.accept {word : TokenKind} {b : Bool} (h : Mark word ts b) :
    Completes (· ≠ word) n ts b (accept word) := by
  cases h with
  | absent =>
    refine ⟨fun _ rest p ds hrest => ?_, fun us hus _ => ?_⟩
    · rw [accept_apply, List.nil_append, peek_kind, if_neg hrest]
    · rw [List.prefix_nil.1 hus]
      exact Idle.ranOut
  | present ht =>
    refine (Completes.cons (fun ws p ds => ?_) (Completes.pure true)).mono (Nat.le_succ n)
    rw [accept_apply, peek_cons, if_pos ht]
    rfl

instance : Idle typeRef := Reads.typeRef.idle

instance (sign : TokenKind) : Idle (typeAfter sign) := by
  unfold typeAfter
  infer_instance

instance : Idle param := by
  unfold param
  infer_instance

/-- a type that may be missing, in front of something else -/
theorem Completes.typeAfter {sign : TokenKind} {type : Option TypeRef} (h : Ascription sign ts type) :
    Completes (· ≠ sign) n ts type (typeAfter sign) := by
  cases h with
  | absent =>
    refine ⟨fun _ rest p ds hrest => ?_, fun us hus _ => ?_⟩
    · rw [Parse.typeAfter, Action.bind_apply, accept_apply, List.nil_append, peek_kind, if_neg hrest]
      rfl
    · rw [List.prefix_nil.1 hus]
      exact Idle.ranOut
  | @present t u ht hu =>
    have htype : Completes (· ≠ sign) n [u] (some ⟨u.lexeme, u.pos⟩) (typeRef >>= fun r => Pure.pure (some r)) := by
      refine (Completes.cons (fun ws p ds => ?_) (Completes.pure _)).mono (Nat.le_succ n)
      rw [Action.bind_apply, typeRef, peek_bind, peek_cons, if_pos (by simpa using hu)]
      rfl
    refine (Completes.cons (fun ws p ds => ?_) htype).mono (Nat.le_succ n)
    rw [Parse.typeAfter, Action.bind_apply, accept_apply, peek_cons, if_pos ht]
    rfl

theorem Completes.param {x : Param} (h : DerivesParam ts x) : IsItem (· ≠ .colon) n param ts x := by
  cases h with
  | @mk t us type ht hus =>
    refine ⟨⟨t, us, rfl, by rw [ht]; decide⟩, ?_⟩
    exact Completes.need ht ((Completes.typeAfter hus).map fun type => (⟨t.lexeme, type, t.pos⟩ : Param))

theorem Completes.params {xs : List Param} (h : Listed DerivesParam ts xs) :
    Completes (· = .rightParen) n ts xs (Parse.items Parse.param) := by
  have hsep : ∀ {ts xs}, Separated DerivesParam ts xs → Separated (IsItem (· ≠ .colon) n Parse.param) ts xs := by
    intro ts xs h
    induction h with
    | one h => exact .one (Completes.param h)
    | more h ht _ ih => exact .more (Completes.param h) ht ih
  have hlist : Listed (IsItem (· ≠ .colon) n Parse.param) ts xs := by
    cases h with
    | none => exact .none
    | some h => exact .some (hsep h)
  exact Completes.items (by decide) (by decide) hlist

end Parts

/-! ## Statements -/

instance (depth k : Nat) : Idle (blockBody (statementWithin depth) k) :=
  (Reads.blockBody (Reads.statementWithin depth) k).idle

instance (depth : Nat) : Idle (block (statementWithin depth)) := (Reads.block (Reads.statementWithin depth)).idle

instance (depth : Nat) (mk : Option Stmt → Stmt) : Idle (elseArm (statementWithin depth) mk) :=
  (Reads.elseArm (Reads.statementWithin depth) mk).idle

instance (word : Token) : Idle (retRest word) := (Reads.retRest word).idle

/-- what is known of the reader of a phrase of a program -/
def Clear : (s : Clause) → List Token → s.Tree → Prop
  | .stmt, ts, s => ∀ n, Completes (· ≠ .elseWord) n ts s (statementWithin (n + 1))
  | .stmts, ts, ss => ∀ n k, Completes (· = .rightBrace) (min n k) ts ss (blockBody (statementWithin (n + 1)) k)
  | .block, ts, b => ∀ n, Completes Anything n ts b (block (statementWithin n))
  | .otherwise, ts, other => ∀ n mk, Completes (· ≠ .elseWord) n ts (mk other) (elseArm (statementWithin n) mk)

section Statements

variable {n : Nat} {ts us vs bs os : List Token}

/-- a step that does, on the tokens and on their starts, what another does there -/
theorem Completes.congr {P : TokenKind → Prop} {a : α} {r r' : Reader α} [Idle r] (h : Completes P n ts a r')
    (hreads : ∀ rest p ds, P (nextKind rest) → ts.length ≤ n → r ⟨ts ++ rest, p, ds⟩ = r' ⟨ts ++ rest, p, ds⟩)
    (hstarts : ∀ u us p ds, u :: us <+: ts → (u :: us).length ≤ n → r ⟨u :: us, p, ds⟩ = r' ⟨u :: us, p, ds⟩) :
    Completes P n ts a r := by
  constructor
  · intro hlen rest p ds hrest
    rw [hreads rest p ds hrest hlen]
    exact h.reads hlen rest p ds hrest
  · intro us hus hlen p ds
    cases us with
    | nil => exact Idle.ranOut p ds
    | cons u us =>
      rw [hstarts u us p ds hus hlen]
      exact h.starts _ hus hlen p ds

/-- the semicolon at the end of a statement -/
theorem Completes.semi {semi : Token} (h : semi.kind = .semicolon) (s : Stmt) :
    Completes Anything n [semi] s (Parse.need .semicolon >>= fun _ => Pure.pure s) :=
  Completes.need h (Completes.pure s)

/-- an expression and the semicolon at the end of a statement -/
theorem Completes.exprSemi {semi : Token} {x : Expr} (hx : DerivesExpr (.expr .comparison) vs x)
    (h : semi.kind = .semicolon) (mk : Expr → Stmt) : Completes Anything n (vs ++ [semi]) (mk x)
      (Parse.expr >>= fun x => Parse.need .semicolon >>= fun _ => Pure.pure (mk x)) :=
  Completes.exprThen hx (by rw [h]; decide) (Completes.semi h (mk x)) ⟨.endOfInput, trivial⟩

/-- a statement whose first token decides how it is read -/
theorem Clear.of_head {s : Stmt} {t : Token} {r : Nat → Reader Stmt}
    (hstep : ∀ n ws p ds, statementWithin (n + 1) ⟨t :: ws, p, ds⟩ = r n ⟨t :: ws, p, ds⟩)
    (h : ∀ n, Completes (· ≠ .elseWord) n (t :: ts) s (r n)) : Clear .stmt (t :: ts) s :=
  fun n => Completes.at (hstep n) (h n)

/-- the same for a reader that takes the first token -/
theorem Clear.of_word {s : Stmt} {t : Token} {r : Nat → Reader Stmt}
    (hstep : ∀ n ws p ds, statementWithin (n + 1) ⟨t :: ws, p, ds⟩ = r n ⟨ws, p, ds⟩)
    (h : ∀ n, Completes (· ≠ .elseWord) n ts s (r n)) : Clear .stmt (t :: ts) s :=
  fun n => (Completes.cons (hstep n) (h n)).mono (Nat.le_succ n)

theorem statementWithin_succ (n : Nat) (t : Token) (ws : List Token) (p : Pos) (ds : List Diagnostic) :
    statementWithin (n + 1) ⟨t :: ws, p, ds⟩ = statementWith (statementWithin n) ⟨t :: ws, p, ds⟩ := rfl

theorem Clear.letDecl {word name sign semi : Token} {type : Option TypeRef} {init : Expr} (hword : word.kind = .letWord)
    (hname : name.kind = .identifier) (htype : Ascription .colon us type) (hsign : sign.kind = .equals)
    (hinit : DerivesExpr (.expr .comparison) vs init) (hsemi : semi.kind = .semicolon) :
    Clear .stmt (word :: name :: (us ++ sign :: (vs ++ [semi]))) (.letDecl word.pos name.lexeme type init) := by
  refine Clear.of_word (r := fun _ => need .identifier >>= fun name => typeAfter .colon >>= fun type =>
    need .equals >>= fun _ => expr >>= fun init => need .semicolon >>= fun _ =>
    pure (Stmt.letDecl word.pos name.lexeme type init)) (fun n ws p ds => ?_) fun n => ?_
  · rw [statementWithin_succ, statementWith_apply, peek_cons, hword]
    rfl
  · refine Completes.need hname ((Completes.typeAfter htype).bind (Completes.need hsign
      ((Completes.exprSemi hinit hsemi _).weaken fun _ _ => trivial)) ?_ ⟨.endOfInput, by decide⟩)
    rintro _ - (hk : sign.kind = .colon)
    rw [hk] at hsign
    exact absurd hsign (by decide)

theorem Clear.loop {word var inWord : Token} {bounds : Expr} {bodyPos : Pos} {body : List Stmt}
    (hword : word.kind = .forWord) (hvar : var.kind = .identifier) (hin : inWord.kind = .inWord)
    (hbounds : DerivesExpr (.expr .comparison) vs bounds) (hbs : DerivesStmt .block bs (bodyPos, body))
    (h : Clear .block bs (bodyPos, body)) :
    Clear .stmt (word :: var :: inWord :: (vs ++ bs)) (.loop word.pos var.lexeme bounds bodyPos body) := by
  refine Clear.of_word (r := fun n => need .identifier >>= fun var => need .inWord >>= fun _ =>
    expr >>= fun bounds => block (statementWithin n) >>= fun b =>
    pure (Stmt.loop word.pos var.lexeme bounds b.1 b.2)) (fun n ws p ds => ?_) fun n => ?_
  · rw [statementWithin_succ, statementWith_apply, peek_cons, hword]
    rfl
  · obtain ⟨left, rest, rfl, hleft⟩ := hbs.block_head
    refine Completes.need hvar (Completes.need hin (Completes.exprThen hbounds (by rw [hleft]; decide) ?_
      ⟨.endOfInput, by decide⟩))
    exact ((h n).map fun b => Stmt.loop word.pos var.lexeme bounds b.1 b.2).weaken fun _ _ => trivial

theorem Clear.cond {word left right : Token} {test : Expr} {thenPos : Pos} {thenBody : List Stmt} {other : Option Stmt}
    (hword : word.kind = .ifWord) (hleft : left.kind = .leftParen) (htest : DerivesExpr (.expr .comparison) vs test)
    (hright : right.kind = .rightParen) (hbs : Clear .block bs (thenPos, thenBody)) (hos : Clear .otherwise os other) :
    Clear .stmt (word :: left :: (vs ++ right :: (bs ++ os))) (.cond word.pos test thenPos thenBody other) := by
  refine Clear.of_word (r := fun n => need .leftParen >>= fun _ => expr >>= fun test => need .rightParen >>= fun _ =>
    block (statementWithin n) >>= fun b => elseArm (statementWithin n) (Stmt.cond word.pos test b.1 b.2))
    (fun n ws p ds => ?_) fun n => ?_
  · rw [statementWithin_succ, statementWith_apply, peek_cons, hword]
    rfl
  · refine Completes.need hleft (Completes.exprThen htest (by rw [hright]; decide) (Completes.need hright ?_)
      ⟨.endOfInput, by decide⟩)
    exact (hbs n).bind (hos n _) (fun _ _ => trivial) ⟨.endOfInput, by decide⟩

theorem Clear.ret {word : Token} {s : Stmt} (hword : word.kind = .returnWord)
    (h : ∀ n, Completes Anything n ts s (retRest word)) : Clear .stmt (word :: ts) s := by
  refine Clear.of_word (r := fun _ => retRest word) (fun n ws p ds => ?_) fun n => (h n).weaken fun _ _ => trivial
  rw [statementWithin_succ, statementWith_apply, peek_cons, hword]
  rfl

theorem Completes.retNone {word semi : Token} (hsemi : semi.kind = .semicolon) :
    Completes Anything n [semi] (Stmt.ret word.pos none) (retRest word) := by
  refine (Completes.cons (fun ws p ds => ?_) (Completes.pure _)).mono (Nat.le_succ n)
  rw [retRest, peekKind_bind, peek_cons, if_pos hsemi]
  rfl

theorem Completes.retSome {word semi : Token} {x : Expr} (hx : DerivesExpr (.expr .comparison) vs x)
    (hsemi : semi.kind = .semicolon) : Completes Anything n (vs ++ [semi]) (Stmt.ret word.pos (some x)) (retRest word) := by
  obtain ⟨t, ts, rfl, ht⟩ := hx.head
  refine Completes.at (fun ws p ds => ?_) (Completes.exprSemi hx hsemi fun x => Stmt.ret word.pos (some x))
  rw [retRest, peekKind_bind, peek_cons, if_neg]
  intro hk
  rw [hk] at ht
  exact absurd ht (by decide)

/-- an expression statement, with the place of its first token -/
theorem Completes.exprStmt {semi : Token} {x : Expr} (hx : DerivesExpr (.expr .comparison) vs x)
    (hsemi : semi.kind = .semicolon) :
    Completes Anything n (vs ++ [semi]) (Stmt.expr (Token.placeOf vs) x) exprStmt := by
  obtain ⟨t, ts, rfl, -⟩ := hx.head
  have : Idle Parse.exprStmt := ⟨fun p ds => Idle.ranOut (r := Parse.expr >>= fun x => Parse.need .semicolon >>= fun _ =>
    Pure.pure (Stmt.expr p x)) p ds⟩
  have h : Completes Anything n (t :: (ts ++ [semi])) (Stmt.expr t.pos x) Parse.exprStmt := by
    refine Completes.at (fun ws p ds => ?_) (Completes.exprSemi hx hsemi fun x => Stmt.expr t.pos x)
    rfl
  exact h

/-- no expression contains a sign of assignment -/
theorem ne_equals_of_derives {s : Phrase} {ts : List Token} {x : s.Tree} (h : DerivesExpr s ts x) :
    ∀ t ∈ ts, t.kind ≠ .equals := by
  have hkind : ∀ {t : Token} {k : TokenKind}, t.kind = k → k ≠ .equals → t.kind ≠ .equals := by
    rintro t k rfl hk
    exact hk
  induction h with
  | tighter _ _ ih | one _ ih | args _ ih => exact ih
  | noArgs => simp
  | number ht | string ht | ident ht => exact List.forall_mem_singleton.2 (hkind ht (by decide))
  | binary _ _ ht _ iha ihb =>
    exact List.forall_mem_append.2 ⟨iha, List.forall_mem_cons.2 ⟨ht.ne_equals, ihb⟩⟩
  | range _ ht _ iha ihb | more _ ht _ iha ihb =>
    exact List.forall_mem_append.2 ⟨iha, List.forall_mem_cons.2 ⟨hkind ht (by decide), ihb⟩⟩
  | await ht _ ih => exact List.forall_mem_cons.2 ⟨hkind ht (by decide), ih⟩
  | call _ ht _ hu ihf ihes =>
    exact List.forall_mem_append.2 ⟨ihf, List.forall_mem_cons.2 ⟨hkind ht (by decide),
      List.forall_mem_append.2 ⟨ihes, List.forall_mem_singleton.2 (hkind hu (by decide))⟩⟩⟩
  | group ht _ hu ih =>
    exact List.forall_mem_cons.2 ⟨hkind ht (by decide),
      List.forall_mem_append.2 ⟨ih, List.forall_mem_singleton.2 (hkind hu (by decide))⟩⟩

/-- without a sign of assignment among them, tokens do not start one -/
theorem startsAssign_eq_false {ts : List Token} (h : ∀ t ∈ ts, t.kind ≠ .equals) (p : Pos) (ds : List Diagnostic) :
    startsAssign ⟨ts, p, ds⟩ = false ∧ (2 ≤ ts.length → ∀ rest, startsAssign ⟨ts ++ rest, p, ds⟩ = false) := by
  match ts, h with
  | [], _ => exact ⟨rfl, by simp⟩
  | [_], _ => exact ⟨rfl, by simp⟩
  | a :: b :: ts, h =>
    have hb : b.kind ≠ .equals := h b (by simp)
    simp [startsAssign, hb]

/-- at a token that can start an expression, a statement that is no assignment is an expression -/
theorem statementWithin_exprStmt {t : Token} (ht : t.kind.startsExpression = true) {ws : List Token} {p : Pos}
    {ds : List Diagnostic} (h : startsAssign ⟨t :: ws, p, ds⟩ = false) (n : Nat) :
    statementWithin (n + 1) ⟨t :: ws, p, ds⟩ = exprStmt ⟨t :: ws, p, ds⟩ := by
  rw [statementWithin_succ, statementWith_apply, peek_cons]
  cases hk : t.kind <;> rw [hk] at ht <;>
    first | exact absurd ht Bool.false_ne_true | (rw [h]; rfl)

theorem Clear.exprStmt {semi : Token} {x : Expr} (hx : DerivesExpr (.expr .comparison) vs x)
    (hsemi : semi.kind = .semicolon) : Clear .stmt (vs ++ [semi]) (.expr (Token.placeOf vs) x) := by
  intro n
  have heq : ∀ t ∈ vs ++ [semi], t.kind ≠ .equals := by
    intro t ht
    rcases List.mem_append.1 ht with ht | ht
    · exact ne_equals_of_derives hx t ht
    · rw [List.mem_singleton.1 ht, hsemi]
      decide
  have hexpr := (Completes.exprStmt (n := n) hx hsemi).weaken (Q := (· ≠ .elseWord)) fun _ _ => trivial
  obtain ⟨t, ts, rfl, ht⟩ := hx.head
  refine hexpr.congr (fun rest p ds _ _ => ?_) fun u us p ds hus _ => ?_
  · have hassign := (startsAssign_eq_false heq p ds).2 (by simp) rest
    exact statementWithin_exprStmt ht hassign n
  · have hassign := (startsAssign_eq_false (fun t ht => heq t (hus.subset ht)) p ds).1
    obtain ⟨rfl, -⟩ := List.cons_prefix_cons.1 hus
    exact statementWithin_exprStmt ht hassign n

theorem Clear.assign {name sign semi : Token} {x : Expr} (hname : name.kind = .identifier) (hsign : sign.kind = .equals)
    (hx : DerivesExpr (.expr .comparison) vs x) (hsemi : semi.kind = .semicolon) :
    Clear .stmt (name :: sign :: (vs ++ [semi])) (.assign name.pos name.lexeme x) := by
  intro n
  have hvalue := Completes.exprSemi (n := n) hx hsemi fun x => Stmt.assign name.pos name.lexeme x
  have hstep : ∀ ws p ds, statementWithin (n + 1) ⟨name :: sign :: ws, p, ds⟩ =
      (expr >>= fun x => need .semicolon >>= fun _ => pure (Stmt.assign name.pos name.lexeme x) : Reader Stmt)
        ⟨ws, p, ds⟩ := by
    intro ws p ds
    rw [statementWithin_succ, statementWith_apply, peek_cons, hname]
    have hassign : startsAssign ⟨name :: sign :: ws, p, ds⟩ = true := by simp [startsAssign, hname, hsign]
    dsimp only
    rw [hassign]
    rfl
  constructor
  · intro hlen rest p ds _
    simp only [List.length_cons] at hlen
    rw [List.cons_append, List.cons_append, hstep]
    exact hvalue.reads (by omega) rest p ds trivial
  · intro us hus hlen p ds
    rcases us with _ | ⟨u, _ | ⟨v, us⟩⟩
    · exact Idle.ranOut p ds
    · -- a name alone is read as an expression that lacks its semicolon
      obtain ⟨rfl, -⟩ := List.cons_prefix_cons.1 hus
      have hname' : DerivesExpr (.expr .comparison) [u] (.ident u.pos u.lexeme) :=
        .tighter rfl (.tighter rfl (.tighter rfl (.tighter rfl (.tighter rfl (.tighter rfl (.ident hname))))))
      rw [statementWithin_exprStmt (by rw [hname]; rfl) rfl]
      exact (Completes.exprStmt hname' hsemi).starts [u] (List.prefix_append _ _) (Nat.le_refl _) p ds
    · obtain ⟨rfl, htail⟩ := List.cons_prefix_cons.1 hus
      obtain ⟨rfl, hvs⟩ := List.cons_prefix_cons.1 htail
      simp only [List.length_cons] at hlen
      rw [hstep]
      exact hvalue.starts us hvs (by omega) p ds

/-- the first token of a function, and that it has its place -/
theorem fnDecl_head {word : Token} {as gs : List Token} {isAsync isGpu : Bool} (has : Mark .asyncWord as isAsync)
    (hgs : Mark .gpuWord gs isGpu) (hword : word.kind = .fnWord) (ws : List Token) :
    ∃ t tail, as ++ (gs ++ word :: ws) = t :: tail ∧ Token.placeOf (as ++ (gs ++ [word])) = t.pos ∧
      (t.kind = .fnWord ∨ t.kind = .asyncWord ∨ t.kind = .gpuWord) := by
  cases has with
  | present ht => exact ⟨_, _, rfl, rfl, Or.inr (Or.inl ht)⟩
  | absent =>
    cases hgs with
    | present ht => exact ⟨_, _, rfl, rfl, Or.inr (Or.inr ht)⟩
    | absent => exact ⟨_, _, rfl, rfl, Or.inl hword⟩

theorem Clear.fnDecl {word name left right : Token} {as gs ps rs : List Token} {isAsync isGpu : Bool}
    {params : List Param} {result : Option TypeRef} {bodyPos : Pos} {body : List Stmt}
    (has : Mark .asyncWord as isAsync) (hgs : Mark .gpuWord gs isGpu) (hword : word.kind = .fnWord)
    (hname : name.kind = .identifier) (hleft : left.kind = .leftParen) (hps : Listed DerivesParam ps params)
    (hright : right.kind = .rightParen) (hrs : Ascription .arrow rs result) (hbs : DerivesStmt .block bs (bodyPos, body))
    (h : Clear .block bs (bodyPos, body)) :
    Clear .stmt (as ++ (gs ++ word :: name :: left :: (ps ++ right :: (rs ++ bs))))
      (.fnDecl (Token.placeOf (as ++ (gs ++ [word]))) ⟨name.lexeme, params, result, isAsync, isGpu⟩ bodyPos body) := by
  have hend : ∃ k, Anything k := ⟨.endOfInput, trivial⟩
  obtain ⟨brace, bs, rfl, hbrace⟩ := hbs.block_head
  obtain ⟨t, tail, heq, hplace, ht⟩ := fnDecl_head has hgs hword (name :: left :: (ps ++ right :: (rs ++ brace :: bs)))
  have hfn : ∀ n, Completes Anything n (as ++ (gs ++ word :: name :: left :: (ps ++ right :: (rs ++ brace :: bs))))
      (Stmt.fnDecl t.pos ⟨name.lexeme, params, result, isAsync, isGpu⟩ bodyPos body)
      (accept .asyncWord >>= fun isAsync => accept .gpuWord >>= fun isGpu => need .fnWord >>= fun _ =>
        need .identifier >>= fun name => need .leftParen >>= fun _ => items param >>= fun params =>
        need .rightParen >>= fun _ => typeAfter .arrow >>= fun result => block (statementWithin n) >>= fun b =>
        pure (Stmt.fnDecl t.pos ⟨name.lexeme, params, result, isAsync, isGpu⟩ b.1 b.2)) := by
    intro n
    refine (Completes.accept has).bind ((Completes.accept hgs).bind (Completes.need hword (Completes.need hname
      (Completes.need hleft ((Completes.params hps).bind (Completes.need hright ((Completes.typeAfter hrs).bind
      ((h n).map fun b => Stmt.fnDecl t.pos ⟨name.lexeme, params, result, isAsync, isGpu⟩ b.1 b.2) ?_ hend))
      (fun _ _ => hright) hend)))) ?_ hend) ?_ hend
    · intro _ _
      show brace.kind ≠ .arrow
      rw [hbrace]
      decide
    · intro _ _
      show word.kind ≠ .gpuWord
      rw [hword]
      decide
    · intro _ _
      cases hgs with
      | absent => exact show word.kind ≠ .asyncWord by rw [hword]; decide
      | present hg => exact show Token.kind _ ≠ .asyncWord by rw [hg]; decide
  rw [hplace]
  rw [heq] at hfn ⊢
  refine Clear.of_head (fun n ws p ds => ?_) fun n => (hfn n).weaken fun _ _ => trivial
  rw [statementWithin_succ, statementWith_apply, peek_cons]
  rcases ht with ht | ht | ht <;> rw [ht] <;> rfl

theorem Clear.braces {left right : Token} {ss : List Stmt} (hleft : left.kind = .leftBrace) (h : Clear .stmts us ss)
    (hright : right.kind = .rightBrace) : Clear .block (left :: (us ++ [right])) (left.pos, ss) := by
  intro n
  cases n with
  | zero => exact Completes.zero (by simp)
  | succ n =>
    have hbody : Completes Anything n (us ++ [right]) (left.pos, ss) (remaining >>= fun k =>
        blockBody (statementWithin (n + 1)) k >>= fun ss => need .rightBrace >>= fun _ => pure (left.pos, ss)) := by
      refine Completes.remaining fun k => ?_
      exact (h n k).bind (Completes.need hright (Completes.pure _)) (fun _ _ => hright) ⟨.endOfInput, trivial⟩
    refine Completes.cons (fun ws p ds => ?_) hbody
    exact need_bind_cons hleft _ ws p ds

theorem Clear.elseIf {word first : Token} {s : Stmt} (hword : word.kind = .elseWord) (hfirst : first.kind = .ifWord)
    (h : Clear .stmt (first :: ts) s) : Clear .otherwise (word :: first :: ts) (some s) := by
  intro n mk
  cases n with
  | zero => exact Completes.zero (by simp)
  | succ n =>
    have hother : Completes (· ≠ .elseWord) n (first :: ts) (mk (some s))
        (otherwise (statementWithin (n + 1)) >>= fun s => pure (mk (some s))) := by
      have : Idle (otherwise (statementWithin (n + 1))) := (Reads.otherwise (Reads.statementWithin (n + 1))).idle
      refine Completes.map (fun s => mk (some s)) (Completes.at (fun ws p ds => ?_) (h n))
      rw [otherwise, peekKind_bind, peek_cons, if_pos hfirst]
    refine Completes.cons (fun ws p ds => ?_) hother
    rw [elseArm, Action.bind_apply, accept_apply, peek_cons, if_pos hword]
    rfl

theorem Clear.elseBlock {word : Token} {pos : Pos} {ss : List Stmt} (hword : word.kind = .elseWord)
    (hbs : DerivesStmt .block bs (pos, ss)) (h : Clear .block bs (pos, ss)) :
    Clear .otherwise (word :: bs) (some (.block pos ss)) := by
  intro n mk
  have hother : Completes (· ≠ .elseWord) n bs (mk (some (.block pos ss)))
      (otherwise (statementWithin n) >>= fun s => pure (mk (some s))) := by
    have : Idle (otherwise (statementWithin n)) := (Reads.otherwise (Reads.statementWithin n)).idle
    obtain ⟨brace, bs, rfl, hbrace⟩ := hbs.block_head
    refine Completes.map (fun s => mk (some s)) (Completes.at (fun ws p ds => ?_)
      (((h n).map fun b => Stmt.block b.1 b.2).weaken fun _ _ => trivial))
    rw [otherwise, peekKind_bind, peek_cons, if_neg (by rw [hbrace]; decide)]
  refine (Completes.cons (fun ws p ds => ?_) hother).mono (Nat.le_succ n)
  rw [elseArm, Action.bind_apply, accept_apply, peek_cons, if_pos hword]
  rfl

theorem Clear.noElse : Clear .otherwise [] none := by
  intro n mk
  refine ⟨fun _ rest p ds hrest => ?_, fun us hus _ => ?_⟩
  · rw [elseArm, Action.bind_apply, accept_apply, List.nil_append, peek_kind, if_neg hrest]
    rfl
  · rw [List.prefix_nil.1 hus]
    exact Idle.ranOut

theorem Clear.nil : Clear .stmts [] [] := by
  intro n k
  refine ⟨fun _ rest p ds hrest => ?_, fun us hus _ => ?_⟩
  · cases k with
    | zero => rfl
    | succ k =>
      rw [blockBody, peekKind_bind, List.nil_append, peek_kind, if_pos (Or.inl hrest)]
      rfl
  · rw [List.prefix_nil.1 hus]
    exact Idle.ranOut

/-- unless a statement is in error for another reason than that the tokens ended, a block is read statement by
statement -/
theorem blockBody_eq_bind {inner : Reader Stmt} {k : Nat} {t : Token} {ws : List Token} {p : Pos} {ds : List Diagnostic}
    (h : t.kind ≠ .rightBrace) (h' : t.kind ≠ .endOfInput)
    (hsoft : ∀ e, ((inner >>= fun s => blockBody inner k >>= fun ss => pure (s :: ss) : Reader (List Stmt))
      ⟨t :: ws, p, ds⟩).1 = .error e → e.incomplete = true) :
    blockBody inner (k + 1) ⟨t :: ws, p, ds⟩ =
      (inner >>= fun s => blockBody inner k >>= fun ss => pure (s :: ss) : Reader (List Stmt)) ⟨t :: ws, p, ds⟩ := by
  rw [blockBody, peekKind_bind, peek_cons, if_neg (not_or.2 ⟨h, h'⟩), remaining_bind, attempt_bind_apply]
  rw [Action.bind_apply] at hsoft ⊢
  rcases hr : inner ⟨t :: ws, p, ds⟩ with ⟨e | s, d⟩
  · rw [hr] at hsoft
    dsimp only
    rw [if_pos (hsoft e rfl)]
    rfl
  · rfl

theorem Clear.cons {s : Stmt} {ss : List Stmt} (hd : DerivesStmt .stmt ts s) (hds : Derives us ss)
    (h : Clear .stmt ts s) (hss : Clear .stmts us ss) : Clear .stmts (ts ++ us) (s :: ss) := by
  intro n k
  obtain ⟨t, ts, rfl, ht⟩ := hd.head
  simp only [List.mem_cons, List.not_mem_nil, or_false, not_or] at ht
  cases k with
  | zero => exact (Completes.zero (by simp)).mono (by omega)
  | succ k =>
    have hfollow : ∀ k, k = .rightBrace → leadKind us k ≠ .elseWord := by
      rintro _ rfl
      cases hds with
      | nil => exact (by decide)
      | cons h _ =>
        obtain ⟨u, us, rfl, hu⟩ := h.head
        intro hk
        exact hu (List.mem_cons.2 (Or.inl hk))
    have hboth := ((h n).mono (Nat.min_le_left n (k + 1))).bindAfter (m := min n k)
      (f := fun s => blockBody (statementWithin (n + 1)) k >>= fun ss => pure (s :: ss))
      ((hss n k).map (s :: ·)) (by rw [List.length_cons]; omega) hfollow ⟨_, rfl⟩
    refine hboth.congr (fun rest p ds hrest hlen => ?_) fun v vs p ds hvs hlen => ?_
    · refine blockBody_eq_bind ht.2.1 ht.2.2 fun e he => ?_
      have hok := congrArg Prod.fst (hboth.reads hlen rest p ds hrest)
      exact nomatch hok.symm.trans he
    · have hout := (hboth.starts _ hvs hlen p ds).2
      obtain ⟨rfl, -⟩ := List.cons_prefix_cons.1 hvs
      exact blockBody_eq_bind ht.2.1 ht.2.2 hout

end Statements

/-- **Statements are clear.** Every phrase of a program is read as its tree. -/
theorem clear_of_derives {s : Clause} {ts : List Token} {x : s.Tree} (h : DerivesStmt s ts x) : Clear s ts x := by
  induction h with
  | letDecl hword hname htype hsign hinit hsemi => exact Clear.letDecl hword hname htype hsign hinit hsemi
  | assign hname hsign hx hsemi => exact Clear.assign hname hsign hx hsemi
  | fnDecl has hgs hword hname hleft hps hright hrs hbs ih =>
    exact Clear.fnDecl has hgs hword hname hleft hps hright hrs hbs ih
  | cond hword hleft htest hright _ _ ihbs ihos => exact Clear.cond hword hleft htest hright ihbs ihos
  | loop hword hvar hin hbounds hbs ih => exact Clear.loop hword hvar hin hbounds hbs ih
  | retNone hword hsemi => exact Clear.ret hword fun _ => Completes.retNone hsemi
  | retSome hword hx hsemi => exact Clear.ret hword fun _ => Completes.retSome hx hsemi
  | expr hx hsemi => exact Clear.exprStmt hx hsemi
  | @block ts pos stmts h ih =>
    obtain ⟨left, rest, rfl, hleft⟩ := h.block_head
    refine Clear.of_head (fun n ws p ds => ?_) fun n =>
      ((ih n).map fun b => Stmt.block b.1 b.2).weaken fun _ _ => trivial
    rw [statementWithin_succ, statementWith_apply, peek_cons, hleft]
  | nil => exact Clear.nil
  | cons h hss ih ihss => exact Clear.cons h hss ih ihss
  | braces hleft _ hright ih => exact Clear.braces hleft ih hright
  | noElse => exact Clear.noElse
  | elseIf hword hfirst _ ih => exact Clear.elseIf hword hfirst ih
  | elseBlock hword h ih => exact Clear.elseBlock hword h ih

/-! ## Programs -/

theorem Completes.statement {n : Nat} {ts : List Token} {s : Stmt} (h : DerivesStmt .stmt ts s) :
    Completes (· ≠ .elseWord) n ts s statement :=
  Completes.remaining fun k => (clear_of_derives h k).mono (Nat.min_le_right n k)

/-- the tokens of a program do not start with `else` -/
theorem nextKind_ne_else {ts : List Token} {ss : List Stmt} (h : Derives ts ss) : nextKind ts ≠ .elseWord := by
  cases h with
  | nil => exact (by decide)
  | cons h _ =>
    obtain ⟨t, us, rfl, ht⟩ := h.head
    exact fun hk => ht (List.mem_cons.2 (Or.inl hk))

/-- **Completeness.** A derivable program is read without faults, and as the tree of its derivation. -/
theorem statements_derives {ts : List Token} {ss : List Stmt} (h : Derives ts ss) (n : Nat) (hn : ts.length ≤ n)
    (p : Pos) (ds : List Diagnostic) : statements n ⟨ts, p, ds⟩ = (.ok ss, ⟨[], p, ds⟩) := by
  induction ss generalizing ts n with
  | nil =>
    cases h
    exact statements_nil rfl
  | cons s ss ih =>
    cases h with
    | @cons ts us _ _ hs hss =>
      have hread := (Completes.statement (n := ts.length) hs).reads (Nat.le_refl _) us p ds (nextKind_ne_else hss)
      obtain ⟨t, ts, rfl, -⟩ := hs.head
      obtain ⟨n, rfl⟩ : ∃ m, n = m + 1 := ⟨n - 1, by simp only [List.length_append, List.length_cons] at hn; omega⟩
      rw [statements_ok (by simp) hread, Action.bind_apply,
        ih hss n (by simp only [List.length_append, List.length_cons] at hn; omega)]
      rfl

/-- **Starts of programs.** On a start of a derivable program at most one fault is recorded, and it is incomplete. -/
theorem statements_start {ts us : List Token} {ss : List Stmt} (h : Derives ts ss) (hus : us <+: ts) (n : Nat) (p : Pos)
    (ds : List Diagnostic) : ∃ ss' d, statements n ⟨us, p, ds⟩ = (.ok ss', d) ∧
      (d.recorded = ds ∨ ∃ e, d.recorded = ds ++ [e] ∧ e.incomplete = true) := by
  induction ss generalizing ts us n with
  | nil =>
    cases h
    rw [List.prefix_nil.1 hus]
    exact ⟨[], _, statements_nil rfl, Or.inl rfl⟩
  | cons s ss ih =>
    by_cases hnil : us = []
    · subst hnil
      exact ⟨[], _, statements_nil rfl, Or.inl rfl⟩
    cases n with
    | zero => exact ⟨[], _, rfl, Or.inl rfl⟩
    | succ n =>
      cases h with
      | @cons ts ws _ _ hs hss =>
        rcases prefix_append_cases hus with hus | ⟨vs, hne, hvs, rfl⟩
        · -- the tokens end inside the statement
          have hout := (Completes.statement (n := us.length) hs).starts us hus (Nat.le_refl _) p ds
          rcases hr : statement ⟨us, p, ds⟩ with ⟨e | s', d⟩ <;> rw [hr] at hout <;> obtain rfl : d = _ := hout.1
          · rw [statements_error hnil hr, statements_nil rfl]
            exact ⟨[], _, rfl, Or.inr ⟨e, rfl, hout.2 e rfl⟩⟩
          · rw [statements_ok hnil hr, Action.bind_apply, statements_nil rfl]
            exact ⟨[s'], _, rfl, Or.inl rfl⟩
        · -- the statement is complete
          have hlead : nextKind vs ≠ .elseWord := by
            rw [nextKind_of_start hvs hne .endOfInput]
            exact nextKind_ne_else hss
          have hread := (Completes.statement (n := ts.length) hs).reads (Nat.le_refl _) vs p ds hlead
          obtain ⟨ss', d, hrun, hrec⟩ := ih hss hvs n
          rw [statements_ok hnil hread, Action.bind_apply, hrun]
          exact ⟨s :: ss', d, rfl, hrec⟩

end Parse

end Ouroboros
