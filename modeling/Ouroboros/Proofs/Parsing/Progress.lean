/-
Reading makes progress.

A reader that `Keeps` only takes tokens from the front, and one that `Takes` gives no result without taking a token.
A statement takes (`takes_statement`), and recovery from a fault skips at least the token at which the statement started
unless something was read before (`length_resume_lt`). So each round of a pass shortens what is left, and a pass with as
many rounds as there are tokens is the pass with any greater number (`statements_rounds`).
-/
import Ouroboros.Proofs.Parsing.Completing

namespace Ouroboros

namespace Parse

open Grammar

variable {α β : Type}

/-! ## What is left -/

/-- reading only takes tokens from the front -/
class Keeps (r : Reader α) : Prop where
  suffix : ∀ c : Cursor, c.Proper → (r c).2.rest <:+ c.rest

theorem Reads.keeps {L : Language α} {r : Reader α} (h : Reads L r) : Keeps r :=
  ⟨fun c hc => (h.spec c hc).leads.rest⟩

/-- a result takes at least one token -/
def Takes (r : Reader α) : Prop := ∀ c : Cursor, c.Proper → ∀ a d, r c = (.ok a, d) → d.rest.length < c.rest.length

theorem Keeps.of_eq {r : Reader α} [Keeps r] {c d : Cursor} (hc : c.Proper) {out : Except Diagnostic α}
    (h : r c = (out, d)) : d.rest <:+ c.rest := by
  have hsuffix := Keeps.suffix (r := r) c hc
  rwa [h] at hsuffix

theorem Cursor.Proper.of_suffix {c d : Cursor} (hc : c.Proper) (h : d.rest <:+ c.rest) : d.Proper :=
  fun t ht => hc t (h.subset ht)

instance {r : Reader α} {f : α → Reader β} [Keeps r] [∀ a, Keeps (f a)] : Keeps (r >>= f) := by
  refine ⟨fun c hc => ?_⟩
  rw [Action.bind_apply]
  rcases hr : r c with ⟨e | a, d⟩
  · exact Keeps.of_eq hc hr
  · have hd := Keeps.of_eq hc hr
    exact (Keeps.suffix (r := f a) d (hc.of_suffix hd)).trans hd

instance (a : α) : Keeps (pure a : Reader α) := ⟨fun c _ => List.suffix_refl c.rest⟩

instance : Keeps remaining := ⟨fun c _ => List.suffix_refl c.rest⟩

instance : Keeps peek := ⟨fun c _ => List.suffix_refl c.rest⟩

instance : Keeps peekKind := ⟨fun c _ => List.suffix_refl c.rest⟩

instance : Keeps advance := ⟨fun c _ => List.tail_suffix c.rest⟩

instance (t : Token) (fault : Token → Fault) : Keeps (failAtToken t fault : Reader α) :=
  ⟨fun c _ => List.suffix_refl c.rest⟩

instance {p : Prop} [Decidable p] {r r' : Reader α} [Keeps r] [Keeps r'] : Keeps (if p then r else r') := by
  split <;> infer_instance

instance (k : TokenKind) : Keeps (need k) := by
  unfold need
  infer_instance

instance (k : TokenKind) : Keeps (accept k) := by
  unfold accept
  infer_instance

instance : Keeps expr := Reads.expr.keeps

instance : Keeps (items param) := (Reads.items Reads.param).keeps

instance : Keeps typeRef := Reads.typeRef.keeps

instance (sign : TokenKind) : Keeps (typeAfter sign) := by
  unfold typeAfter
  infer_instance

/-! ## What is taken -/

theorem Takes.first {r : Reader α} {f : α → Reader β} (h : Takes r) [∀ a, Keeps (f a)] [Keeps r] :
    Takes (r >>= f) := by
  intro c hc b d' hrun
  rw [Action.bind_apply] at hrun
  rcases hr : r c with ⟨e | a, d⟩ <;> rw [hr] at hrun
  · cases hrun
  · have hd := (Keeps.of_eq hc hr)
    have hlater := (Keeps.of_eq (hc.of_suffix hd) hrun).length_le
    have hfewer := h c hc a d hr
    omega

theorem Takes.later {r : Reader α} {f : α → Reader β} [Keeps r] (h : ∀ a, Takes (f a)) : Takes (r >>= f) := by
  intro c hc b d' hrun
  rw [Action.bind_apply] at hrun
  rcases hr : r c with ⟨e | a, d⟩ <;> rw [hr] at hrun
  · cases hrun
  · have hd := (Keeps.of_eq hc hr)
    have hfewer := h a d (hc.of_suffix hd) b d' hrun
    have hle := hd.length_le
    omega

theorem takes_failAtToken (t : Token) (fault : Token → Fault) : Takes (failAtToken t fault : Reader α) := by
  intro c _ a d hrun
  cases hrun

theorem Cursor.length_tail_lt {c : Cursor} (h : c.peek.kind ≠ .endOfInput) : c.rest.tail.length < c.rest.length := by
  have hlength := congrArg List.length (Cursor.rest_of_peek h)
  rw [List.length_cons] at hlength
  omega

/-- the end of input is no token that could be left -/
theorem takes_need {k : TokenKind} (hk : k ≠ .endOfInput) : Takes (need k) := by
  intro c _ t d hrun
  rw [need_apply] at hrun
  split at hrun
  · rename_i hpeek
    cases hrun
    exact Cursor.length_tail_lt (by rw [hpeek]; exact hk)
  · cases hrun

theorem takes_letDecl : Takes letDecl :=
  .later fun _ => .first (takes_need (by decide))

theorem takes_assign : Takes assign :=
  .later fun _ => .later fun _ => .later fun _ => .first (takes_need (by decide))

theorem takes_exprStmt : Takes exprStmt :=
  .later fun _ => .later fun _ => .first (takes_need (by decide))

theorem takes_ret : Takes ret := by
  rw [ret_eq]
  refine .later fun word => ?_
  intro c hc s d hrun
  rw [retRest, peekKind_bind] at hrun
  split at hrun
  · rename_i hpeek
    cases hrun
    exact Cursor.length_tail_lt (by rw [hpeek]; decide)
  · have hvalue : Takes (expr >>= fun value => need .semicolon >>= fun _ => pure (Stmt.ret word.pos (some value))) :=
      .later fun _ => .first (takes_need (by decide))
    exact hvalue c hc s d hrun

section Inner

variable {inner : Reader Stmt} (h : Reads (DerivesStmt .stmt) inner)

include h

theorem takes_block : Takes (block inner) := by
  have hbody : ∀ n, Keeps (blockBody inner n) := fun n => (Reads.blockBody h n).keeps
  exact .first (takes_need (by decide))

theorem takes_fnDecl : Takes (fnDecl inner) := by
  have hblock : Keeps (block inner) := (Reads.block h).keeps
  exact .later fun _ => .later fun _ => .later fun _ => .first (takes_need (by decide))

theorem takes_cond : Takes (cond inner) := by
  have hblock : Keeps (block inner) := (Reads.block h).keeps
  have hother : Keeps (otherwise inner) := (Reads.otherwise h).keeps
  exact .later fun _ => .first (takes_need (by decide))

theorem takes_loop : Takes (loop inner) := by
  have hblock : Keeps (block inner) := (Reads.block h).keeps
  exact .later fun _ => .first (takes_need (by decide))

/-- every form of a statement asks for one of its tokens -/
theorem takes_statementWith : Takes (statementWith inner) := by
  have hblock : Keeps (block inner) := (Reads.block h).keeps
  intro c hc s d hrun
  rw [statementWith_apply] at hrun
  split at hrun
  · exact takes_letDecl c hc s d hrun
  · exact takes_fnDecl h c hc s d hrun
  · exact takes_fnDecl h c hc s d hrun
  · exact takes_fnDecl h c hc s d hrun
  · exact takes_cond h c hc s d hrun
  · exact takes_loop h c hc s d hrun
  · exact takes_ret c hc s d hrun
  · exact (takes_block h).first c hc s d hrun
  · split at hrun
    · exact takes_assign c hc s d hrun
    split at hrun
    · exact takes_exprStmt c hc s d hrun
    · exact takes_failAtToken _ _ c hc s d hrun

end Inner

theorem takes_statementWithin (depth : Nat) : Takes (statementWithin depth) := by
  cases depth with
  | zero => exact .later fun t => takes_failAtToken t .expectedStatement
  | succ depth => exact takes_statementWith (Reads.statementWithin depth)

/-- **A statement takes a token.** -/
theorem takes_statement : Takes statement := .later fun n => takes_statementWithin (n + 1)

/-! ## Recovery -/

/-- recovery from a fault leaves fewer tokens than there were at the start of the statement -/
theorem length_resume_lt {start : List Token} {rest : List Token} (hne : start ≠ []) (h : rest <:+ start) :
    (resume start.length rest).length < start.length := by
  have hle := h.length_le
  cases rest with
  | nil => exact List.length_pos_iff.2 hne
  | cons t rest =>
    rw [List.length_cons] at hle
    unfold resume
    split
    · omega
    split
    · split
      · omega
      · rw [List.length_cons]
        omega
    · have hskip := (resume_suffix start.length rest).length_le
      omega

/-! ## Rounds -/

/-- **Enough rounds.** A pass with as many rounds as there are tokens is the pass with any number that suffices. -/
theorem statements_rounds {m n : Nat} {c : Cursor} (hc : c.Proper) (hm : c.rest.length ≤ m) (hn : c.rest.length ≤ n) :
    statements m c = statements n c := by
  induction m generalizing n c with
  | zero =>
    have hnil := List.length_eq_zero_iff.1 (Nat.le_zero.1 hm)
    rw [statements_nil hnil, statements_nil hnil]
  | succ m ih =>
    by_cases hnil : c.rest = []
    · rw [statements_nil hnil, statements_nil hnil]
    have hpos := List.length_pos_iff.2 hnil
    obtain ⟨n, rfl⟩ : ∃ k, n = k + 1 := ⟨n - 1, by omega⟩
    have hleads := (Reads.statement.spec c hc).leads
    rcases hr : statement c with ⟨e | s, d⟩ <;> rw [hr] at hleads
    · have hfewer := length_resume_lt hnil hleads.rest
      rw [statements_error hnil hr, statements_error hnil hr]
      refine ih (hc.of_suffix ((resume_suffix _ _).trans hleads.rest)) ?_ ?_
      · exact Nat.le_of_lt_succ (Nat.lt_of_lt_of_le hfewer hm)
      · exact Nat.le_of_lt_succ (Nat.lt_of_lt_of_le hfewer hn)
    · have hfewer := takes_statement c hc s d hr
      rw [statements_ok hnil hr, statements_ok hnil hr, Action.bind_apply, Action.bind_apply,
        ih (hleads.proper hc) (Nat.le_of_lt_succ (Nat.lt_of_lt_of_le hfewer hm))
          (Nat.le_of_lt_succ (Nat.lt_of_lt_of_le hfewer hn))]

end Parse

end Ouroboros
