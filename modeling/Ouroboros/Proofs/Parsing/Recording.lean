/-
What readers record.

A reader that fails blames the token that is next then, and so does every fault that was recorded on the way. Reading
leaves a trail: tokens that are taken one after the other, and faults at tokens between (`Trail`). Hence the faults of a
program are in the order of the tokens (`Trail.places`).

A reader that records nothing may take nothing; any other takes more tokens than it records faults (`Steady`), for a fault
is recorded only inside a block, whose opening brace was taken. In a loop over statements a fault that is recorded costs
the token at which the statement started, or the one that was taken before the fault. So a pass over the tokens records at
most as many faults as there are tokens, all but the last of them behind a token that is left, and only the last may be
due to the end (`exists_course`).
-/
import Mathlib.Data.List.Forall2
import Ouroboros.Proofs.Parsing.Progress

namespace Ouroboros

/-- the token that a syntax fault is about -/
def Fault.token? : Fault → Option Token
  | .expectedToken _ t | .expectedType t | .expectedStatement t | .expectedExpression t => some t
  | _ => none

/-- a syntax fault that is about the token, stands at its place, and is incomplete if the token is the end of input -/
structure Diagnostic.IsAt (e : Diagnostic) (t : Token) : Prop where
  found : e.fault.token? = some t
  place : e.pos = t.pos
  incomplete : e.incomplete = true ↔ t.kind = .endOfInput

namespace Parse

variable {α β : Type}

/-! ## Trails -/

/-- the tokens left at the start, the faults recorded, and the tokens left at the end: each fault is at the token that was
next when it was recorded -/
inductive Trail : List Token → List Diagnostic → List Token → Prop where
  | stop (ts : List Token) : Trail ts [] ts
  | take {t : Token} {ts us : List Token} {es : List Diagnostic} (h : Trail ts es us) : Trail (t :: ts) es us
  | note {t : Token} {ts us : List Token} {e : Diagnostic} {es : List Diagnostic} (he : e.IsAt t)
      (h : Trail (t :: ts) es us) : Trail (t :: ts) (e :: es) us

namespace Trail

variable {ts us vs : List Token} {es fs : List Diagnostic}

theorem trans (h : Trail ts es us) (h' : Trail us fs vs) : Trail ts (es ++ fs) vs := by
  induction h with
  | stop => exact h'
  | take _ ih => exact .take (ih h')
  | note he _ ih => exact .note he (ih h')

theorem suffix (h : Trail ts es us) : us <:+ ts := by
  induction h with
  | stop => exact List.suffix_refl _
  | take _ ih => exact ih.trans (List.suffix_cons _ _)
  | note _ _ ih => exact ih

/-- taking tokens without a fault -/
theorem of_suffix (h : us <:+ ts) : Trail ts [] us := by
  obtain ⟨front, rfl⟩ := h
  induction front with
  | nil => exact .stop us
  | cons t front ih => exact .take ih

/-- **Faults are in the order of the tokens.** There are indices of tokens, each at least the one before it, at which the
faults were found. -/
theorem places (h : Trail ts es us) : ∃ ks : List Nat, ks.Pairwise (· ≤ ·) ∧ (∀ k ∈ ks, k < ts.length) ∧
    List.Forall₂ (fun e k => ∃ t, ts[k]? = some t ∧ e.IsAt t) es ks := by
  induction h with
  | stop => exact ⟨[], .nil, List.forall_mem_nil _, .nil⟩
  | @take t ts us es _ ih =>
    obtain ⟨ks, hks, hlt, hes⟩ := ih
    refine ⟨ks.map (· + 1), hks.map _ fun i j hij => Nat.succ_le_succ hij, ?_, ?_⟩
    · rw [List.forall_mem_map]
      exact fun k hk => Nat.succ_lt_succ (hlt k hk)
    · rw [List.forall₂_map_right_iff]
      exact hes.imp fun e k he => he
  | @note t ts us e es he _ ih =>
    obtain ⟨ks, hks, hlt, hes⟩ := ih
    exact ⟨0 :: ks, List.pairwise_cons.2 ⟨fun k _ => Nat.zero_le k, hks⟩,
      List.forall_mem_cons.2 ⟨Nat.succ_pos _, hlt⟩, .cons ⟨t, rfl, he⟩ hes⟩

/-- every fault of a trail is at one of the tokens -/
theorem exists_mem (h : Trail ts es us) : ∀ e ∈ es, ∃ t ∈ ts, e.IsAt t := by
  induction h with
  | stop => exact List.forall_mem_nil _
  | take _ ih =>
    intro e he
    obtain ⟨t, ht, hat⟩ := ih e he
    exact ⟨t, List.mem_cons_of_mem _ ht, hat⟩
  | note he _ ih => exact List.forall_mem_cons.2 ⟨⟨_, List.mem_cons_self, he⟩, ih⟩

end Trail

/-! ## Readers -/

/-- from the cursor reading came to this outcome, and recorded `new` on the way -/
structure Course (c : Cursor) (out : Except Diagnostic α × Cursor) (new : List Diagnostic) : Prop where
  recorded : out.2.recorded = c.recorded ++ new
  finish : out.2.finish = c.finish
  trail : Trail c.rest new out.2.rest
  blames : ∀ e, out.1 = .error e → e.IsAt out.2.peek

/-- nothing is recorded, or fewer faults than tokens are taken -/
def Fewer (c : Cursor) (new : List Diagnostic) (d : Cursor) : Prop :=
  new = [] ∨ new.length + d.rest.length < c.rest.length

/-- at most as many faults are recorded as tokens are taken -/
def AtMost (c : Cursor) (new : List Diagnostic) (d : Cursor) : Prop := new.length + d.rest.length ≤ c.rest.length

/-- a failure is at the next token, and what is recorded costs at least as many tokens as there are faults -/
def Fair (r : Reader α) : Prop := ∀ c : Cursor, ∃ new, Course c (r c) new ∧ AtMost c new (r c).2

/-- a failure is at the next token, and whatever is recorded costs more tokens than there are faults -/
class Steady (r : Reader α) : Prop where
  course : ∀ c : Cursor, ∃ new, Course c (r c) new ∧ Fewer c new (r c).2

theorem Course.still {c : Cursor} {out : Except Diagnostic α} (h : ∀ e, out = .error e → e.IsAt c.peek) :
    Course c (out, c) [] :=
  ⟨(List.append_nil _).symm, rfl, .stop _, h⟩

/-- a look at the cursor -/
theorem Course.look {c : Cursor} (a : α) : Course c (.ok a, c) [] := .still fun e he => by cases he

theorem isAt_failAtToken {t : Token} {fault : Token → Fault} (h : (fault t).token? = some t) :
    Diagnostic.IsAt ⟨fault t, t.pos, [], t.kind = .endOfInput⟩ t :=
  ⟨h, rfl, decide_eq_true_iff⟩

theorem Course.failAtToken {c : Cursor} (fault : Token → Fault) (h : ∀ t, (fault t).token? = some t) :
    Course c ((Parse.failAtToken c.peek fault : Reader α) c) [] := by
  refine .still fun e he => ?_
  cases he
  exact isAt_failAtToken (h _)

theorem Course.advance {c : Cursor} {a : α} : Course c (.ok a, { c with rest := c.rest.tail }) [] :=
  ⟨(List.append_nil _).symm, rfl, .of_suffix (List.tail_suffix _), fun e he => by cases he⟩

/-- one step behind the other -/
theorem Course.trans {c d : Cursor} {a : α} {out : Except Diagnostic β × Cursor} {new later : List Diagnostic}
    (h : Course c (.ok a, d) new) (h' : Course d out later) : Course c out (new ++ later) :=
  ⟨by rw [h'.recorded, h.recorded, List.append_assoc], h'.finish.trans h.finish, h.trail.trans h'.trail, h'.blames⟩

theorem Course.failed {r : Reader α} {f : α → Reader β} {c d : Cursor} {e : Diagnostic} {new : List Diagnostic}
    (hr : r c = (.error e, d)) (h : Course c (r c) new) : Course c ((r >>= f) c) new := by
  rw [hr] at h
  rw [Action.bind_apply, hr]
  refine ⟨h.recorded, h.finish, h.trail, fun e' he => ?_⟩
  cases he
  exact h.blames e rfl

/-- a step whose result is put into another form ends where it ended -/
theorem snd_map (r : Reader α) (g : α → β) (c : Cursor) : ((r >>= fun a => pure (g a)) c).2 = (r c).2 := by
  rw [Action.bind_apply]
  rcases r c with ⟨e | a, d⟩ <;> rfl

theorem Course.map {r : Reader α} {c : Cursor} {new : List Diagnostic} (h : Course c (r c) new) (g : α → β) :
    Course c ((r >>= fun a => pure (g a)) c) new := by
  rcases hr : r c with ⟨e | a, d⟩
  · exact h.failed hr
  · rw [hr] at h
    rw [Action.bind_apply, hr]
    exact ⟨h.recorded, h.finish, h.trail, fun e he => by cases he⟩

theorem Fewer.trans {c d d' : Cursor} {new later : List Diagnostic} (h : Fewer c new d) (h' : Fewer d later d')
    (hd : d.rest <:+ c.rest) (hd' : d'.rest <:+ d.rest) : Fewer c (new ++ later) d' := by
  have hle := hd.length_le
  have hle' := hd'.length_le
  simp only [Fewer, List.append_eq_nil_iff, List.length_append] at h h' ⊢
  rcases h with rfl | h <;> rcases h' with rfl | h'
  · exact Or.inl ⟨rfl, rfl⟩
  · simp only [List.length_nil]
    omega
  · simp only [List.length_nil]
    omega
  · omega

theorem AtMost.of_fewer {c d : Cursor} {new : List Diagnostic} (h : Fewer c new d) (hd : d.rest <:+ c.rest) :
    AtMost c new d := by
  rcases h with rfl | h
  · simpa [AtMost] using hd.length_le
  · exact Nat.le_of_lt h

theorem AtMost.trans {c d d' : Cursor} {new later : List Diagnostic} (h : AtMost c new d) (h' : AtMost d later d') :
    AtMost c (new ++ later) d' := by
  simp only [AtMost, List.length_append] at h h' ⊢
  omega

instance {r : Reader α} {f : α → Reader β} [Steady r] [∀ a, Steady (f a)] : Steady (r >>= f) := by
  refine ⟨fun c => ?_⟩
  obtain ⟨new, hcourse, hfewer⟩ := Steady.course (r := r) c
  rcases hr : r c with ⟨e | a, d⟩
  · refine ⟨new, hcourse.failed hr, ?_⟩
    rw [Action.bind_apply, hr]
    rwa [hr] at hfewer
  · obtain ⟨later, hlater, hfewer'⟩ := Steady.course (r := f a) d
    rw [hr] at hcourse hfewer
    rw [Action.bind_apply, hr]
    exact ⟨new ++ later, hcourse.trans hlater, hfewer.trans hfewer' hcourse.trail.suffix hlater.trail.suffix⟩

instance (a : α) : Steady (pure a : Reader α) := ⟨fun _ => ⟨[], .look a, Or.inl rfl⟩⟩

instance : Steady peek := ⟨fun _ => ⟨[], .look _, Or.inl rfl⟩⟩

instance : Steady peekKind := ⟨fun _ => ⟨[], .look _, Or.inl rfl⟩⟩

instance : Steady remaining := ⟨fun _ => ⟨[], .look _, Or.inl rfl⟩⟩

instance : Steady advance := ⟨fun _ => ⟨[], .advance, Or.inl rfl⟩⟩

instance {p : Prop} [Decidable p] {r r' : Reader α} [Steady r] [Steady r'] : Steady (if p then r else r') := by
  split <;> infer_instance

instance (k : TokenKind) : Steady (need k) := by
  refine ⟨fun c => ⟨[], ?_, Or.inl rfl⟩⟩
  rw [need_apply]
  split
  · exact .advance
  · exact Course.failAtToken (.expectedToken k) fun _ => rfl

instance (k : TokenKind) : Steady (accept k) := by
  unfold accept
  infer_instance

/-- failing at the token that was just looked at -/
theorem steady_failHere {fault : Token → Fault} (h : ∀ t, (fault t).token? = some t) :
    Steady (peek >>= fun t => failAtToken t fault : Reader α) :=
  ⟨fun _ => ⟨[], Course.failAtToken _ h, Or.inl rfl⟩⟩

instance {item : Reader α} [Steady item] (n : Nat) : Steady (moreItems item n) := by
  induction n with
  | zero =>
    unfold moreItems
    infer_instance
  | succ n ih =>
    unfold moreItems
    infer_instance

instance {item : Reader α} [Steady item] : Steady (items item) := by
  unfold items
  infer_instance

theorem Steady.fair {r : Reader α} [Steady r] : Fair r := fun c => by
  obtain ⟨new, hcourse, hfewer⟩ := Steady.course (r := r) c
  exact ⟨new, hcourse, .of_fewer hfewer hcourse.trail.suffix⟩

theorem Fair.bind {r : Reader α} {f : α → Reader β} (h : Fair r) (hf : ∀ a, Fair (f a)) : Fair (r >>= f) := by
  intro c
  obtain ⟨new, hcourse, hmost⟩ := h c
  rcases hr : r c with ⟨e | a, d⟩
  · refine ⟨new, hcourse.failed hr, ?_⟩
    rw [Action.bind_apply, hr]
    rwa [hr] at hmost
  · obtain ⟨later, hlater, hmost'⟩ := hf a d
    rw [hr] at hcourse hmost
    rw [Action.bind_apply, hr]
    exact ⟨new ++ later, hcourse.trans hlater, hmost.trans hmost'⟩

/-- a token that is needed in front pays for one fault more -/
theorem Fair.behind {k : TokenKind} {f : Token → Reader α} (hk : k ≠ .endOfInput) (h : ∀ t, Fair (f t)) :
    Steady (need k >>= f) := by
  refine ⟨fun c => ?_⟩
  rw [Action.bind_apply, need_apply]
  by_cases hpeek : c.peek.kind = k
  · have hfirst : Course c (.ok c.peek, { c with rest := c.rest.tail }) [] := .advance
    obtain ⟨new, hcourse, hmost⟩ := h c.peek { c with rest := c.rest.tail }
    have hshort := Cursor.length_tail_lt (c := c) (by rwa [hpeek])
    rw [if_pos hpeek]
    exact ⟨[] ++ new, hfirst.trans hcourse, Or.inr (Nat.lt_of_le_of_lt hmost hshort)⟩
  · rw [if_neg hpeek]
    exact ⟨[], .still fun e he => by cases he; exact isAt_failAtToken rfl, Or.inl rfl⟩

/-! ### Expressions -/

instance {operand : Reader Expr} {op? : TokenKind → Option BinaryOp} [Steady operand] (n : Nat) (left : Expr) :
    Steady (chainRest operand op? n left) := by
  induction n generalizing left with
  | zero =>
    unfold chainRest
    infer_instance
  | succ n ih =>
    refine ⟨fun c => ?_⟩
    rw [chainRest, peekKind_bind]
    cases op? c.peek.kind with
    | none => exact Steady.course (r := pure left) c
    | some op => exact Steady.course (r := advance >>= fun _ => operand >>= fun _ => chainRest operand op? n _) c

instance {operand : Reader Expr} {op? : TokenKind → Option BinaryOp} [Steady operand] : Steady (chain operand op?) := by
  unfold chain
  infer_instance

section Nested

variable {nested : Reader Expr} [Steady nested]

instance : Steady (primary nested) := by
  refine ⟨fun c => ?_⟩
  rw [primary_apply]
  split
  · exact Steady.course (r := advance >>= fun _ => pure _) c
  · exact Steady.course (r := advance >>= fun _ => pure _) c
  · exact Steady.course (r := advance >>= fun _ => pure _) c
  · exact Steady.course (r := advance >>= fun _ => nested >>= fun inner => need .rightParen >>= fun _ => pure _) c
  · exact ⟨[], Course.failAtToken _ fun _ => rfl, Or.inl rfl⟩

instance (n : Nat) (callee : Expr) : Steady (callRest nested n callee) := by
  induction n generalizing callee with
  | zero =>
    unfold callRest
    infer_instance
  | succ n ih =>
    unfold callRest
    infer_instance

instance : Steady (call nested) := by
  unfold call
  infer_instance

instance : Steady (unary nested) := by
  unfold unary
  infer_instance

instance : Steady (product nested) := by
  unfold product
  infer_instance

instance : Steady (sum nested) := by
  unfold sum
  infer_instance

instance : Steady (span nested) := by
  unfold span
  infer_instance

instance : Steady (comparison nested) := by
  unfold comparison
  infer_instance

end Nested

instance (depth : Nat) : Steady (exprWithin depth) := by
  induction depth with
  | zero => exact steady_failHere fun _ => rfl
  | succ depth ih =>
    unfold exprWithin
    infer_instance

instance : Steady expr := by
  unfold expr
  infer_instance

/-! ### Statements -/

instance : Steady typeRef := by
  refine ⟨fun c => ?_⟩
  rw [typeRef, peek_bind]
  split
  · exact Steady.course (r := advance >>= fun _ => pure _) c
  · exact ⟨[], Course.failAtToken _ fun _ => rfl, Or.inl rfl⟩

instance (sign : TokenKind) : Steady (typeAfter sign) := by
  unfold typeAfter
  infer_instance

instance : Steady param := by
  unfold param
  infer_instance

instance : Steady letDecl := by
  unfold letDecl
  infer_instance

instance : Steady assign := by
  unfold assign
  infer_instance

instance : Steady ret := by
  unfold ret
  infer_instance

instance : Steady exprStmt := by
  unfold exprStmt
  infer_instance

section Inner

variable {inner : Reader Stmt} [Steady inner]

omit [Steady inner] in
/-- a loop over statements goes on behind a fault: it is recorded where it was found, and fewer tokens are left than at the
start of the statement -/
theorem course_recover {c d : Cursor} {e : Diagnostic} {new : List Diagnostic} (hne : c.rest ≠ [])
    (hd : d.peek.kind ≠ .endOfInput) (hr : inner c = (.error e, d)) (hcourse : Course c (inner c) new)
    (hfewer : Fewer c new (inner c).2) :
    Course c (recover c.rest.length e d) (new ++ [e]) ∧
      AtMost c (new ++ [e]) (recover c.rest.length e d).2 := by
  rw [hr] at hcourse hfewer
  have hat : e.IsAt d.peek := hcourse.blames e rfl
  have hnote : Trail d.rest [e] (resume c.rest.length d.rest) := by
    have hskip := Trail.of_suffix (resume_suffix c.rest.length d.rest)
    rw [Cursor.rest_of_peek hd] at hskip ⊢
    exact .note hat hskip
  rw [recover_apply]
  refine ⟨⟨?_, hcourse.finish, hcourse.trail.trans hnote, fun e' he => by cases he⟩, ?_⟩
  · rw [hcourse.recorded, List.append_assoc]
  · have hshort : (resume c.rest.length d.rest).length < c.rest.length := length_resume_lt hne hcourse.trail.suffix
    have hle := (resume_suffix c.rest.length d.rest).length_le
    simp only [AtMost, Fewer, List.length_append, List.length_singleton] at hfewer ⊢
    rcases hfewer with rfl | hfewer
    · rw [List.length_nil]
      omega
    · omega

/-- behind its brace a block records at most as many faults as it takes tokens -/
theorem fair_blockBody (n : Nat) : Fair (blockBody inner n) := by
  intro c
  induction n generalizing c with
  | zero => exact ⟨[], .look [], .of_fewer (Or.inl rfl) (List.suffix_refl _)⟩
  | succ n ih =>
    rw [blockBody, peekKind_bind]
    split
    · exact ⟨[], .look [], .of_fewer (Or.inl rfl) (List.suffix_refl _)⟩
    rename_i hk
    have hne : c.rest ≠ [] := fun hnil => hk (Or.inr (by simp [Cursor.peek, hnil, Token.finish]))
    rw [remaining_bind, attempt_bind_apply]
    obtain ⟨new, hcourse, hfewer⟩ := Steady.course (r := inner) c
    have hmost := AtMost.of_fewer hfewer hcourse.trail.suffix
    rcases hr : inner c with ⟨e | s, d⟩ <;> dsimp only
    · have hat : e.IsAt d.peek := by
        rw [hr] at hcourse
        exact hcourse.blames e rfl
      split
      · -- the tokens ended: the block fails as the statement did
        rw [hr] at hcourse hmost
        refine ⟨new, ⟨hcourse.recorded, hcourse.finish, hcourse.trail, fun e' he => ?_⟩, hmost⟩
        cases he
        exact hat
      · rename_i hincomplete
        have hd : d.peek.kind ≠ .endOfInput := fun hend => hincomplete (hat.incomplete.2 hend)
        obtain ⟨hfirst, hmost⟩ := course_recover hne hd hr hcourse hfewer
        obtain ⟨later, hlater, hmost'⟩ := ih (recover c.rest.length e d).2
        exact ⟨new ++ [e] ++ later, hfirst.trans hlater, hmost.trans hmost'⟩
    · obtain ⟨later, hlater, hmost'⟩ := ih d
      rw [hr] at hcourse hmost
      exact ⟨new ++ later, hcourse.trans (hlater.map _), by rw [snd_map]; exact hmost.trans hmost'⟩

instance : Steady (block inner) := by
  unfold block
  exact Fair.behind (by decide) fun sign => Steady.fair.bind fun n => (fair_blockBody n).bind fun ss => Steady.fair

instance : Steady (fnDecl inner) := by
  unfold fnDecl
  infer_instance

instance : Steady (otherwise inner) := by
  unfold otherwise
  infer_instance

instance : Steady (cond inner) := by
  unfold cond
  infer_instance

instance : Steady (loop inner) := by
  unfold loop
  infer_instance

instance : Steady (statementWith inner) := by
  refine ⟨fun c => ?_⟩
  rw [statementWith_apply]
  split
  · exact Steady.course c
  · exact Steady.course c
  · exact Steady.course c
  · exact Steady.course c
  · exact Steady.course c
  · exact Steady.course c
  · exact Steady.course c
  · exact Steady.course c
  · split
    · exact Steady.course c
    split
    · exact Steady.course c
    · exact ⟨[], Course.failAtToken _ fun _ => rfl, Or.inl rfl⟩

end Inner

instance (depth : Nat) : Steady (statementWithin depth) := by
  induction depth with
  | zero => exact steady_failHere fun _ => rfl
  | succ depth ih =>
    unfold statementWithin
    infer_instance

instance : Steady statement := by
  unfold statement
  infer_instance

/-! ## Passes -/

/-- from the cursor a pass took all tokens. It recorded `new` at tokens that were next, and perhaps one more fault at the
end, and no more faults than there were tokens. -/
structure Sweep (c d : Cursor) (new last : List Diagnostic) : Prop where
  recorded : d.recorded = c.recorded ++ (new ++ last)
  rest : d.rest = []
  trail : Trail c.rest new []
  final : last = [] ∨ ∃ e, last = [e] ∧ e.IsAt (.finish c.finish)
  few : (new ++ last).length ≤ c.rest.length

theorem Sweep.nothing {c : Cursor} (h : c.rest = []) : Sweep c c [] [] :=
  ⟨(List.append_nil _).symm, h, h ▸ .stop _, Or.inl rfl, Nat.zero_le _⟩

/-- what is recorded in front of a pass -/
theorem Sweep.after {c d d' : Cursor} {a : α} {new later last : List Diagnostic} (h' : Sweep d d' later last)
    (h : Course c (.ok a, d) new) (hmost : AtMost c new d) : Sweep c d' (new ++ later) last where
  recorded := by rw [h'.recorded, h.recorded, List.append_assoc, List.append_assoc]
  rest := h'.rest
  trail := h.trail.trans h'.trail
  final := by
    rw [← h.finish]
    exact h'.final
  few := by
    have hfew := h'.few
    simp only [AtMost, List.length_append] at hmost hfew ⊢
    omega

/-- a fault that is due to the end is the last of a pass -/
theorem Sweep.ended {c d : Cursor} {e : Diagnostic} {new : List Diagnostic} (hne : c.rest ≠ []) (hd : d.rest = [])
    (h : Course c ((.error e, d) : Except Diagnostic α × Cursor) new) (hfewer : Fewer c new d) :
    Sweep c { d with recorded := d.recorded ++ [e] } new [e] where
  recorded := by
    dsimp only
    rw [h.recorded, List.append_assoc]
  rest := hd
  trail := hd ▸ h.trail
  final := by
    have hat := h.blames e rfl
    have hpeek : d.peek = .finish d.finish := by simp [Cursor.peek, hd]
    rw [hpeek, h.finish] at hat
    exact Or.inr ⟨e, rfl, hat⟩
  few := by
    have hpos := List.length_pos_iff.2 hne
    rw [List.length_append, List.length_singleton]
    rcases hfewer with rfl | hfewer
    · rw [List.length_nil]
      omega
    · omega

/-- **A pass takes all tokens.** Its faults are in the order of the tokens, at most one of them is due to the end, which is
then the last, and there are at most as many as tokens. -/
theorem exists_sweep {n : Nat} {c : Cursor} (hc : c.Proper) (hn : c.rest.length ≤ n) :
    ∃ stmts d new last, statements n c = (.ok stmts, d) ∧ Sweep c d new last := by
  induction n generalizing c with
  | zero =>
    have hnil := List.length_eq_zero_iff.1 (Nat.le_zero.1 hn)
    exact ⟨[], c, [], [], statements_nil hnil, .nothing hnil⟩
  | succ n ih =>
    by_cases hnil : c.rest = []
    · exact ⟨[], c, [], [], statements_nil hnil, .nothing hnil⟩
    obtain ⟨new, hcourse, hfewer⟩ := Steady.course (r := statement) c
    rcases hr : statement c with ⟨e | s, d⟩
    · have hsuffix := hcourse.trail.suffix
      have hblames := hcourse.blames
      rw [hr] at hsuffix hblames
      by_cases hd : d.peek.kind = .endOfInput
      · have hrest : d.rest = [] := (hc.of_suffix hsuffix).peek_kind.1 hd
        rw [hr] at hcourse hfewer
        refine ⟨[], _, new, [e], ?_, .ended hnil hrest hcourse hfewer⟩
        rw [statements_error hnil hr, hrest]
        exact statements_nil rfl
      · obtain ⟨hfirst, hmost⟩ := course_recover hnil hd hr hcourse hfewer
        have hlength := hmost
        rw [recover_apply] at hfirst hmost hlength
        simp only [AtMost, List.length_append, List.length_singleton] at hlength
        have hle : (resume c.rest.length d.rest).length ≤ n := by omega
        obtain ⟨stmts, d', later, last, hrun, hsweep⟩ := ih (hc.of_suffix hfirst.trail.suffix) hle
        exact ⟨stmts, d', _, last, by rw [statements_error hnil hr, hrun], hsweep.after hfirst hmost⟩
    · have hmost := AtMost.of_fewer hfewer hcourse.trail.suffix
      rw [hr] at hcourse hmost
      have hshort := takes_statement c hc s d hr
      have hle : d.rest.length ≤ n := by omega
      obtain ⟨stmts, d', later, last, hrun, hsweep⟩ := ih (hc.of_suffix hcourse.trail.suffix) hle
      refine ⟨s :: stmts, d', _, last, ?_, hsweep.after hcourse hmost⟩
      rw [statements_ok hnil hr, Action.bind_apply, hrun]
      rfl

end Parse

end Ouroboros
