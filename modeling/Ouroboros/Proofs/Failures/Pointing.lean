/-
Where diagnostics point.

A reporter shows a diagnostic with a text and marks its place there. For a text that is no program this is right: the place
is that of a token of the text, of its end or of a lexical fault in it, on one of its lines
(`Program.ofSource_errors_point`). For a program that fails it is right unless the failure arises in a function that an
earlier text of the session has declared. Places do not say which text they belong to: such a failure has a place in the
earlier text, and the text it is shown with need not even have the line (`Machine.failures_point`).
-/
import Ouroboros.Proofs.Failures.Unwinding
import Ouroboros.Proofs.Failures.Phases

namespace Ouroboros

/-! ## Lines -/

theorem Bytes.length_lines (t : Bytes) : (lines t).length = t.count newline + 1 := by
  induction t with
  | nil => rfl
  | cons b t ih =>
    unfold lines
    by_cases hb : b = newline
    · rw [if_pos hb, List.length_cons, ih, hb, List.count_cons_self]
    · rw [if_neg hb, List.count_cons_of_ne hb]
      cases hlines : lines t with
      | nil => simp [hlines] at ih
      | cons line others =>
        rw [hlines] at ih
        exact ih

namespace Pos

/-- the line on which a text ends that starts at a place -/
def lastLine (p : Pos) (t : Bytes) : Int := p.line + t.count Bytes.newline

theorem line_le_lastLine (p : Pos) (t : Bytes) : p.line ≤ p.lastLine t := by
  unfold lastLine
  omega

theorem lastLine_next (p : Pos) (b : UInt8) (t : Bytes) : (p.next b).lastLine t = p.lastLine (b :: t) := by
  unfold lastLine next
  by_cases hb : b = Bytes.newline
  · rw [if_pos hb, hb, List.count_cons_self]
    push_cast
    omega
  · rw [if_neg hb, List.count_cons_of_ne hb]

theorem lastLine_after (p : Pos) (w t : Bytes) : (p.after w).lastLine t = p.lastLine (w ++ t) := by
  induction w generalizing p with
  | nil => rfl
  | cons b w ih => exact (ih (p.next b)).trans (lastLine_next p b (w ++ t))

theorem UpTo.line_le {p q : Pos} (h : p.UpTo q) : p.line ≤ q.line := by
  rcases h with rfl | h
  · exact Int.le_refl _
  · rw [before_iff] at h
    omega

end Pos

namespace Token

/-! ### Reading on keeps the last line -/

theorem lastLine_skipBlanks (comment : Bool) (p : Pos) (t : Bytes) :
    (skipBlanks comment p t).1.lastLine (skipBlanks comment p t).2 = p.lastLine t := by
  fun_induction skipBlanks comment p t with
  | case1 | case5 => rfl
  | case2 p b rest ih | case3 p b rest _ ih | case4 p b rest _ _ ih => exact ih.trans (Pos.lastLine_next p b rest)

theorem lastLine_stringBody (p : Pos) (t : Bytes) : (stringBody p t).pos.lastLine (stringBody p t).rest = p.lastLine t := by
  fun_induction stringBody p t with
  | case1 | case3 => rfl
  | case2 p rest => exact Pos.lastLine_next p _ rest
  | case4 p => exact Pos.lastLine_next p _ []
  | case5 p e rest c _ _ _ body ih | case6 p e rest _ _ _ body ih =>
    exact ih.trans ((Pos.lastLine_next _ e rest).trans (Pos.lastLine_next p _ (e :: rest)))
  | case7 p b rest _ _ _ body ih => exact ih.trans (Pos.lastLine_next p b rest)

theorem lastLine_piece {kind : TokenKind} {lexeme : Bytes} {literal : Literal} {rest t : Bytes} (p : Pos)
    (h : lexeme ++ rest = t) :
    (piece kind lexeme literal p rest).pos.lastLine (piece kind lexeme literal p rest).rest = p.lastLine t := by
  rw [← h]
  exact Pos.lastLine_after p lexeme rest

/-- the last line is kept, up to what is dropped with a stray character -/
theorem lastLine_nextPiece (p : Pos) (b : UInt8) (rest : Bytes) :
    (nextPiece p b rest).pos.lastLine (nextPiece p b rest).rest ≤ p.lastLine (b :: rest) := by
  cases starts b rest with
  | token _ _ _ hcut hpiece =>
    rw [hpiece]
    refine Int.le_of_eq (lastLine_piece p ?_)
    rw [List.cons_append, hcut]
  | string _ hpiece =>
    have hbody := (lastLine_stringBody (p.next b) rest).trans (Pos.lastLine_next p b rest)
    rw [hpiece, stringPiece]
    split <;> exact Int.le_of_eq hbody
  | stray _ hpiece =>
    have hcount := ((List.drop_sublist (((Text.first? (b :: rest)).getD (Text.replacement, 1)).2 - 1) rest).cons
      b).count_le Bytes.newline
    rw [hpiece]
    unfold strayPiece Pos.lastLine
    dsimp only
    omega

/-- no token and no fault lies behind the last line -/
theorem scanFrom_line_le (p : Pos) (s : Bytes) :
    (∀ t ∈ (scanFrom p s).tokens, t.pos.line ≤ p.lastLine s) ∧ ∀ e ∈ (scanFrom p s).errors, e.pos.line ≤ p.lastLine s := by
  induction p, s using scan_induction with
  | hend p s q hblank =>
    have hq := lastLine_skipBlanks false p s
    rw [hblank] at hq
    rw [scanFrom_end hblank]
    refine ⟨List.forall_mem_singleton.mpr ?_, List.forall_mem_nil _⟩
    rw [← hq]
    exact q.line_le_lastLine []
  | hnext p s q b rest hblank ih =>
    have hq := lastLine_skipBlanks false p s
    rw [hblank] at hq
    have hpiece := lastLine_nextPiece q b rest
    have hpasses := nextPiece_passes q b rest
    rw [scanFrom_next hblank, List.forall_mem_append, List.forall_mem_append, ← hq]
    refine ⟨⟨fun t ht => ?_, fun t ht => (ih.1 t ht).trans hpiece⟩, fun e he => ?_, fun e he => (ih.2 e he).trans hpiece⟩
    · rw [pos_of_nextPiece (Option.mem_toList.mp ht)]
      exact q.line_le_lastLine _
    · calc e.pos.line ≤ (nextPiece q b rest).pos.line := Pos.UpTo.line_le (.inr (hpasses.before e he))
        _ ≤ (nextPiece q b rest).pos.lastLine (nextPiece q b rest).rest := Pos.line_le_lastLine _ _
        _ ≤ q.lastLine (b :: rest) := hpiece

end Token

/-! ## Places in texts -/

namespace Pos

/-- the place of a token of the text, or of its end -/
def IsTokenOf (p : Pos) (source : Bytes) : Prop := ∃ t ∈ (Token.scan source).tokens, t.pos = p

/-- the place of a lexical fault in the text -/
def IsFaultOf (p : Pos) (source : Bytes) : Prop := ∃ e ∈ (Token.scan source).errors, e.pos = p

/-- the text has the line of the place -/
def IsOnLineOf (p : Pos) (source : Bytes) : Prop := 1 ≤ p.line ∧ p.line ≤ (Bytes.lines source).length

variable {p : Pos} {source : Bytes}

theorem lastLine_start (source : Bytes) : start.lastLine source = (Bytes.lines source).length := by
  rw [Bytes.length_lines, lastLine, start]
  push_cast
  omega

theorem IsTokenOf.isPlaced (h : p.IsTokenOf source) : p.IsPlaced := by
  obtain ⟨t, ht, rfl⟩ := h
  exact Token.placed_scan source t ht

theorem IsTokenOf.isOnLineOf (h : p.IsTokenOf source) : p.IsOnLineOf source := by
  refine ⟨h.isPlaced.1, ?_⟩
  obtain ⟨t, ht, rfl⟩ := h
  rw [← lastLine_start]
  exact (Token.scanFrom_line_le .start source).1 t ht

theorem IsFaultOf.isOnLineOf (h : p.IsFaultOf source) : p.IsOnLineOf source := by
  obtain ⟨e, he, rfl⟩ := h
  obtain ⟨ts, q, htokens, -⟩ := Token.exists_tokens_eq .start source
  refine ⟨((Token.scanFrom_passes htokens).behind e he).line_le, ?_⟩
  rw [← lastLine_start]
  exact (Token.scanFrom_line_le .start source).2 e he

end Pos

namespace Program

/-- a syntax fault stands at a token, or at the end -/
theorem isTokenOf_of_mem_errors {source : Bytes} {d : Diagnostic}
    (h : d ∈ (ofTokens (Token.scan source).tokens).errors) : d.pos.IsTokenOf source := by
  obtain ⟨ts, q, htokens, hts⟩ := Token.exists_tokens_eq .start source
  obtain ⟨stmts, c, new, hpass, hprogram⟩ := exists_pass_finish hts q
  rw [Token.scan, htokens, hprogram] at h
  unfold Pos.IsTokenOf
  rw [Token.scan, htokens]
  rcases (hpass.blames d h).place with hend | ⟨t, ht, hpos⟩
  · exact ⟨.finish q, List.mem_append_right _ List.mem_cons_self, hend.symm⟩
  · exact ⟨t, List.mem_append_left _ ht, hpos⟩

/-- **Faults of a text point into it.** -/
theorem ofSource_errors_point {source : Bytes} {d : Diagnostic} (h : d ∈ (ofSource source).errors) :
    (d.pos.IsTokenOf source ∨ d.pos.IsFaultOf source) ∧ d.pos.IsOnLineOf source := by
  rcases mem_ofSource_errors.mp h with h | h
  · have hfault : d.pos.IsFaultOf source := ⟨d, h, rfl⟩
    exact ⟨.inr hfault, hfault.isOnLineOf⟩
  · have htoken := isTokenOf_of_mem_errors h
    exact ⟨.inl htoken, htoken.isOnLineOf⟩

end Program

/-! ## Places in trees -/

/-- `p` is the place of the expression or of one in it -/
inductive Expr.HasPlace (p : Pos) : Expr → Prop where
  | here {e : Expr} (h : e.pos = p) : e.HasPlace p
  | inside {e part : Expr} (hpart : part ∈ e.parts) (h : part.HasPlace p) : e.HasPlace p

/-- `p` is the place of the statement or of a statement or expression in it -/
inductive Stmt.HasPlace (p : Pos) : Stmt → Prop where
  | here {s : Stmt} (h : s.pos = p) : s.HasPlace p
  | expr {s : Stmt} {x : Expr} (hx : x ∈ s.exprs) (h : x.HasPlace p) : s.HasPlace p
  | inside {s part : Stmt} (hpart : part ∈ s.parts) (h : part.HasPlace p) : s.HasPlace p

/-- `p` is a place in the body of the function -/
def Closure.HasPlace (p : Pos) (f : Closure) : Prop := ∃ s ∈ f.body, s.HasPlace p

variable {P : Pos → Prop}

theorem Expr.LiesIn.at {e : Expr} {p : Pos} (h : e.LiesIn P) (hp : e.HasPlace p) : P p := by
  induction hp with
  | here hpos =>
    rw [← hpos]
    exact h.here
  | inside hpart _ ih => exact ih (h.inside hpart)

theorem Stmt.LiesIn.at {s : Stmt} {p : Pos} (h : s.LiesIn P) (hp : s.HasPlace p) : P p := by
  induction hp with
  | here hpos =>
    rw [← hpos]
    exact h.here
  | expr hx hplace => exact Expr.LiesIn.at (h.exprs hx) hplace
  | inside hpart _ ih => exact ih (h.inside hpart)

theorem Expr.liesIn_of_hasPlace (e : Expr) (h : ∀ p, e.HasPlace p → P p) : e.LiesIn P :=
  .of_parts (h e.pos (.here rfl)) fun part hpart => liesIn_of_hasPlace part fun p hp => h p (.inside hpart hp)
termination_by sizeOf e
decreasing_by exact sizeOf_parts hpart

theorem Stmt.liesIn_of_hasPlace (s : Stmt) (h : ∀ p, s.HasPlace p → P p) : s.LiesIn P :=
  .of_parts (h s.pos (.here rfl)) (fun x hx => x.liesIn_of_hasPlace fun p hp => h p (.expr hx hp))
    fun part hpart => liesIn_of_hasPlace part fun p hp => h p (.inside hpart hp)
termination_by sizeOf s
decreasing_by exact sizeOf_parts hpart

/-! ## Sessions -/

namespace Machine

open Eval

/-- a scope binds a name to the function, or the function handles an event -/
inductive Knows (m : Machine) (f : Closure) : Prop where
  | bound {i : ScopeId} {scope : Scope} {b : Bytes × Value} (hscope : m.world.store.scopes[i]? = some scope)
    (hb : b ∈ scope.table) (hf : b.2 = .function f) : m.Knows f
  | handler {e : Bytes × List Value} (he : e ∈ m.interpreter.handlers) (hf : .function f ∈ e.2) : m.Knows f

variable {m : Machine} {c : Site} {f : Closure}

/-- the functions that a machine knows lie where the terms have it -/
theorem Knows.at (hknows : m.Knows f) (hm : (Terms.within P).Holds c m) {p : Pos} (hp : f.HasPlace p) : P p := by
  have hbody : ∀ s ∈ f.body, s.LiesIn P := by
    cases hknows with
    | bound hscope hb hf => exact hm.store _ _ hscope _ hb f hf
    | handler he hf => exact hm.handlers _ he _ hf f rfl
  obtain ⟨s, hs, hplace⟩ := hp
  exact (hbody s hs).at hplace

/-- what lies where the known functions lie, while no call is active -/
theorem holds_within_known {limit : Int} (hm : Terms.placed.Holds ⟨limit, []⟩ m)
    (h : ∀ f, m.Knows f → ∀ p, f.HasPlace p → P p) : (Terms.within P).Holds ⟨limit, []⟩ m where
  store i scope hscope b hb f hf s hs :=
    s.liesIn_of_hasPlace fun p hp => h f (.bound hscope hb hf) p ⟨s, hs, hp⟩
  handlers e he v hv f hf s hs := by
    subst hf
    exact s.liesIn_of_hasPlace fun p hp => h f (.handler he hv) p ⟨s, hs, hp⟩
  hosts := hm.hosts
  refuses := hm.refuses
  calls := List.forall_mem_nil _
  limit := hm.limit
  frames := hm.frames

/-- a program that fails does so where its tokens are, or where the functions are that the machine knows -/
theorem execSource_points {limit : Int} (hm : Terms.placed.Holds ⟨limit, []⟩ m) {name source : Bytes}
    (hsound : (Program.ofSource source).isSound = true) {ds : List Diagnostic}
    (hfail : (m.execSource name source).1 = .error ds) :
    ∃ d, ds = [d] ∧ (d.pos.IsTokenOf source ∨ ∃ f, m.Knows f ∧ f.HasPlace d.pos) := by
  let P : Pos → Prop := fun p => p.IsTokenOf source ∨ ∃ f, m.Knows f ∧ f.HasPlace p
  have hplaced : ∀ p, P p → p.IsPlaced := by
    rintro p (htoken | ⟨f, hknows, hp⟩)
    · exact htoken.isPlaced
    · exact hknows.at hm hp
  have hholds : (Terms.within P).Holds ⟨limit, []⟩ m := holds_within_known hm fun f hf p hp => .inr ⟨f, hf, hp⟩
  have hhalts := haltsAt_within hholds name hsound fun t ht => .inl ⟨t, ht, rfl⟩
  obtain ⟨hout, -⟩ := exec_eq_stmts hsound (m.log (Eval.sourceNote name (Program.ofSource source)))
  rcases hhalt : m.haltSource name source with ⟨e | a, m₀⟩ <;> rw [hhalt] at hhalts
  · obtain ⟨frames, hinner, harises, hrun⟩ := hhalts
    have hsite : Site.within ⟨limit, []⟩ frames = ⟨limit, frames⟩ := by
      rw [Site.within, List.append_nil]
    rw [hsite] at hinner harises
    rw [hrun] at hout
    obtain rfl : [unwind frames [] e] = ds := Except.error.inj (hout.symm.trans hfail)
    exact ⟨_, rfl, at_unwind hplaced hinner harises⟩
  · rw [hhalts.1] at hout
    cases hout.symm.trans hfail

/-- **Diagnostics point into their text, or into an earlier one.** Let texts be run on a new machine without host
operations, the graphics backend of which gives no diagnostics that already have a place or a trace, and let a further text
fail. If it is no program, each diagnostic is at a token of the text, at its end or at a lexical fault in it, and on one of
its lines. If it is a program, there is one diagnostic, and it is at a token of the text, on one of its lines; or it is in
the body of a function that the machine knew before the text was run, and then it is at a token of an earlier text of the
session and on one of the lines of that text. -/
theorem failures_point (w : World) (hstore : w.store = .empty) (hhosts : w.hosts = #[])
    (hrefuses : w.RefusesWith Diagnostic.IsFresh) (limit : Int) (earlier : List (Bytes × Bytes)) (name source : Bytes)
    (ds : List Diagnostic) (hfail : ((session w limit earlier).execSource name source).1 = .error ds) :
    (¬(Program.ofSource source).isSound = true → ds = (Program.ofSource source).errors ∧
      ∀ d ∈ ds, (d.pos.IsTokenOf source ∨ d.pos.IsFaultOf source) ∧ d.pos.IsOnLineOf source) ∧
    ((Program.ofSource source).isSound = true → ∃ d, ds = [d] ∧
      (d.pos.IsTokenOf source ∧ d.pos.IsOnLineOf source ∨
        ∃ f, (session w limit earlier).Knows f ∧ f.HasPlace d.pos ∧
          ∃ t ∈ earlier, (Program.ofSource t.2).isSound = true ∧ d.pos.IsTokenOf t.2 ∧ d.pos.IsOnLineOf t.2)) := by
  refine ⟨fun hsound => ?_, fun hsound => ?_⟩
  · have hexec : ((session w limit earlier).execSource name source).1 = .error (Program.ofSource source).errors :=
      congrArg Prod.fst (exec_of_faulty hsound _ none)
    obtain rfl : ds = (Program.ofSource source).errors := Except.error.inj (hfail.symm.trans hexec)
    exact ⟨rfl, fun d hd => Program.ofSource_errors_point hd⟩
  · obtain ⟨d, rfl, hplace⟩ := execSource_points (holds_session w hstore hhosts hrefuses limit earlier) hsound hfail
    refine ⟨d, rfl, ?_⟩
    rcases hplace with htoken | ⟨f, hknows, hp⟩
    · exact .inl ⟨htoken, htoken.isOnLineOf⟩
    · -- the function was read from one of the texts before
      have horigin := holds_within_session (P := fun p => ∃ t ∈ earlier, (Program.ofSource t.2).isSound = true ∧
        p.IsTokenOf t.2) w hstore hhosts hrefuses limit earlier fun t ht hs u hu => ⟨t, ht, hs, u, hu, rfl⟩
      obtain ⟨t, ht, hs, htoken⟩ := hknows.at horigin hp
      exact .inr ⟨f, hknows, hp, t, ht, hs, htoken, htoken.isOnLineOf⟩

/-- a text whose last line declares a function that fails -/
def distant : Bytes := text "\n\n\nfn f() \x7b return y; \x7d"

/-- The failure of the call is on line 4, and the text of the call has one line. -/
theorem failures_point_distant :
    let m := session .fresh 10 [(text "first", distant)]
    let d : Diagnostic := ⟨.undefinedVariable (text "y"), ⟨4, 17⟩, [.call ⟨text "f", ⟨1, 2⟩⟩], false⟩
    World.fresh.store = .empty ∧ World.fresh.hosts = #[] ∧ World.fresh.RefusesWith Diagnostic.IsFresh ∧
    (Program.ofSource (text "f();")).isSound = true ∧
    (m.execSource (text "next") (text "f();")).1 = .error [d] ∧ ¬d.pos.IsOnLineOf (text "f();") ∧
    ∃ f, m.Knows f ∧ f.HasPlace d.pos ∧ d.pos.IsTokenOf distant := by
  intro m d
  have hrefuses : World.fresh.RefusesWith Diagnostic.IsFresh := .of_none rfl
  have hsound : (Program.ofSource (text "f();")).isSound = true := by decide +kernel
  have hfail : (m.execSource (text "next") (text "f();")).1 = .error [d] := eq_error_of_map (by decide +kernel)
  have hline : ¬d.pos.IsOnLineOf (text "f();") := fun h => absurd h.2 (by decide)
  obtain ⟨-, hpoints⟩ := failures_point .fresh rfl rfl hrefuses 10 [(text "first", distant)] (text "next") (text "f();")
    [d] hfail
  obtain ⟨_, hd, hplace⟩ := hpoints hsound
  cases hd
  obtain ⟨-, honLine⟩ | ⟨f, hknows, hp, t, ht, -, htoken, -⟩ := hplace
  · exact absurd honLine hline
  · rw [List.mem_singleton.mp ht] at htoken
    exact ⟨rfl, rfl, hrefuses, hsound, hfail, hline, f, hknows, hp, htoken⟩

end Machine

end Ouroboros
