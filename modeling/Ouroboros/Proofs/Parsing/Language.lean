/-
What a reading step can do, said once for all steps.

A step has a language: a relation between token sequences and results. `Spec L c out` says of an outcome `out` of a
step at a cursor `c` that
- reading only takes tokens from the front and only adds hard syntax faults to the record (`Leads`);
- a result, when nothing was recorded on the way, comes with tokens of the language that were read for it;
- a failure is a syntax fault at a token that is still to be read or at the end of the tokens (`Blames`), and at the end
  if it is marked incomplete. If nothing was recorded before it, the tokens are then the start of a phrase of the
  language: some spelled tokens complete them;
- at the end of the tokens nothing is changed, and a failure is incomplete.
`Reads L r` says this of a step at all cursors, and that the language has a phrase of spelled tokens. It is closed under
sequencing (`Reads.bind`): the language of a sequence is the sequence of the languages. So soundness of a reader, and
that every early end can be mended, are proved together, layer by layer, and no layer looks into the one below.
-/
import Ouroboros.Proofs.Lexemes

namespace Ouroboros

namespace Parse

variable {α β : Type}

/-! ## How the steps run -/

@[simp] theorem peek_bind (f : Token → Reader β) (c : Cursor) : (peek >>= f) c = f c.peek c := rfl

@[simp] theorem peekKind_bind (f : TokenKind → Reader β) (c : Cursor) : (peekKind >>= f) c = f c.peek.kind c := rfl

@[simp] theorem remaining_bind (f : Nat → Reader β) (c : Cursor) : (remaining >>= f) c = f c.rest.length c := rfl

@[simp] theorem advance_apply (c : Cursor) : advance c = (.ok c.peek, { c with rest := c.rest.tail }) := rfl

@[simp] theorem failAtToken_apply (t : Token) (fault : Token → Fault) (c : Cursor) :
    (failAtToken t fault : Reader α) c = (.error ⟨fault t, t.pos, [], t.kind = .endOfInput⟩, c) := rfl

theorem need_apply (k : TokenKind) (c : Cursor) :
    need k c = if c.peek.kind = k then (.ok c.peek, { c with rest := c.rest.tail })
      else (.error ⟨.expectedToken k c.peek, c.peek.pos, [], c.peek.kind = .endOfInput⟩, c) := by
  unfold need
  rw [peek_bind]
  split <;> rfl

theorem accept_apply (k : TokenKind) (c : Cursor) :
    accept k c = if c.peek.kind = k then (.ok true, { c with rest := c.rest.tail }) else (.ok false, c) := by
  unfold accept
  rw [peekKind_bind]
  split <;> rfl

@[simp] theorem attempt_bind_apply {σ : Type} (r : Action σ α) (f : Except Diagnostic α → Action σ β) (c : σ) :
    (Action.attempt r >>= f) c = f (r c).1 (r c).2 := rfl

@[simp] theorem recover_apply (start : Nat) (d : Diagnostic) (c : Cursor) :
    recover start d c = (.ok (), { c with rest := resume start c.rest, recorded := c.recorded ++ [d] }) := rfl

theorem peek_cons (t : Token) (ts : List Token) (p : Pos) (ds : List Diagnostic) :
    (Cursor.mk (t :: ts) p ds).peek = t := rfl

theorem need_bind_cons {k : TokenKind} {t : Token} (h : t.kind = k) (f : Token → Reader β) (ts : List Token) (p : Pos)
    (ds : List Diagnostic) : (need k >>= f) ⟨t :: ts, p, ds⟩ = f t ⟨ts, p, ds⟩ := by
  rw [Action.bind_apply, need_apply, peek_cons, if_pos h]
  rfl

/-- recovery only skips tokens -/
theorem resume_suffix (start : Nat) (ts : List Token) : resume start ts <:+ ts := by
  induction ts with
  | nil => exact List.suffix_refl _
  | cons t ts ih =>
    unfold resume
    split
    · exact List.suffix_cons t ts
    · split
      · split
        · exact List.suffix_cons t ts
        · exact List.suffix_refl _
      · exact ih.trans (List.suffix_cons t ts)

/-! ## Cursors -/

/-- no end of input stands among the tokens -/
def Cursor.Proper (c : Cursor) : Prop := ∀ t ∈ c.rest, t.kind ≠ .endOfInput

/-- a syntax fault that blames a token still to be read at `c`, or the end of the tokens -/
structure Cursor.Blames (c : Cursor) (e : Diagnostic) : Prop where
  phase : e.kind.phase = .parsing
  place : e.pos = c.finish ∨ ∃ t ∈ c.rest, t.pos = e.pos

/-- further on fewer tokens are left to blame -/
theorem Cursor.Blames.mono {c d : Cursor} {e : Diagnostic} (h : d.Blames e) (hrest : d.rest <:+ c.rest)
    (hfinish : d.finish = c.finish) : c.Blames e where
  phase := h.phase
  place := by
    obtain hend | ⟨t, ht, hpos⟩ := h.place
    · exact Or.inl (hend.trans hfinish)
    · exact Or.inr ⟨t, hrest.subset ht, hpos⟩

/-- `d` is where reading from `c` can lead -/
structure Cursor.Leads (c d : Cursor) : Prop where
  rest : d.rest <:+ c.rest
  finish : d.finish = c.finish
  recorded : ∃ new, d.recorded = c.recorded ++ new ∧ ∀ e ∈ new, e.incomplete = false ∧ c.Blames e

theorem Cursor.Leads.refl (c : Cursor) : c.Leads c :=
  ⟨List.suffix_refl _, rfl, [], by simp, by simp⟩

theorem Cursor.Leads.trans {c d e : Cursor} (h₁ : c.Leads d) (h₂ : d.Leads e) : c.Leads e := by
  obtain ⟨new₁, e₁, hard₁⟩ := h₁.recorded
  obtain ⟨new₂, e₂, hard₂⟩ := h₂.recorded
  refine ⟨h₂.rest.trans h₁.rest, h₂.finish.trans h₁.finish, new₁ ++ new₂, ?_, ?_⟩
  · rw [e₂, e₁, List.append_assoc]
  · intro x hx
    rcases List.mem_append.1 hx with hx | hx
    · exact hard₁ x hx
    · exact ⟨(hard₂ x hx).1, (hard₂ x hx).2.mono h₁.rest h₁.finish⟩

theorem Cursor.Leads.tail (c : Cursor) : c.Leads { c with rest := c.rest.tail } :=
  ⟨List.tail_suffix _, rfl, [], by simp, by simp⟩

/-- recording a hard fault and skipping tokens -/
theorem Cursor.Leads.recover {c d : Cursor} (h : c.Leads d) (start : Nat) {e : Diagnostic}
    (hard : e.incomplete = false) (hblames : c.Blames e) :
    c.Leads { d with rest := resume start d.rest, recorded := d.recorded ++ [e] } := by
  obtain ⟨new, hnew, hall⟩ := h.recorded
  refine ⟨(resume_suffix _ _).trans h.rest, h.finish, new ++ [e], ?_, ?_⟩
  · rw [hnew, List.append_assoc]
  · intro x hx
    rcases List.mem_append.1 hx with hx | hx
    · exact hall x hx
    · rw [List.mem_singleton.1 hx]
      exact ⟨hard, hblames⟩

theorem Cursor.Leads.proper {c d : Cursor} (h : c.Leads d) (hc : c.Proper) : d.Proper :=
  fun t ht => hc t (h.rest.subset ht)

/-- what was recorded at the end and what was recorded at the start agree only if nothing was recorded between -/
theorem Cursor.Leads.recorded_eq {c d e : Cursor} (h₁ : c.Leads d) (h₂ : d.Leads e) (h : e.recorded = c.recorded) :
    d.recorded = c.recorded ∧ e.recorded = d.recorded := by
  obtain ⟨new₁, e₁, -⟩ := h₁.recorded
  obtain ⟨new₂, e₂, -⟩ := h₂.recorded
  have hlen := congrArg List.length h
  rw [e₂, e₁, List.length_append, List.length_append] at hlen
  have hnew₁ : new₁ = [] := List.length_eq_zero_iff.1 (by omega)
  have hnew₂ : new₂ = [] := List.length_eq_zero_iff.1 (by omega)
  subst hnew₁ hnew₂
  exact ⟨by rw [e₁, List.append_nil], by rw [e₂, List.append_nil]⟩

/-- at the end of the tokens, and only there, the next token is the end of input -/
theorem Cursor.Proper.peek_kind {c : Cursor} (hc : c.Proper) : c.peek.kind = .endOfInput ↔ c.rest = [] := by
  obtain ⟨rest, finish, recorded⟩ := c
  cases rest with
  | nil => exact ⟨fun _ => rfl, fun _ => rfl⟩
  | cons t ts => exact ⟨fun h => absurd h (hc t List.mem_cons_self), fun h => by simp at h⟩

/-- a token of a kind that text produces is the first of the tokens left -/
theorem Cursor.rest_of_peek {c : Cursor} (h : c.peek.kind ≠ .endOfInput) : c.rest = c.peek :: c.rest.tail := by
  obtain ⟨rest, finish, recorded⟩ := c
  cases rest with
  | nil => exact absurd rfl h
  | cons t ts => rfl

/-- the next token is one of the tokens left, or stands at their end -/
theorem Cursor.peek_place (c : Cursor) : c.peek.pos = c.finish ∨ ∃ t ∈ c.rest, t.pos = c.peek.pos := by
  obtain ⟨rest, finish, recorded⟩ := c
  cases rest with
  | nil => exact Or.inl rfl
  | cons t ts => exact Or.inr ⟨t, List.mem_cons_self, rfl⟩

/-! ## Languages -/

/-- a relation between token sequences and what they stand for -/
abbrev Language (α : Type) := List Token → α → Prop

/-- one token of a kind -/
def One (k : TokenKind) : Language Token := fun ts t => ts = [t] ∧ t.kind = k

/-- this token -/
def This (t : Token) : Language Token := fun ts u => ts = [t] ∧ u = t

/-- no token -/
def Nothing (a : α) : Language α := fun ts b => ts = [] ∧ b = a

/-- a phrase and, depending on what it stands for, another -/
def Seq (L : Language α) (M : α → Language β) : Language β :=
  fun ts b => ∃ us vs a, ts = us ++ vs ∧ L us a ∧ M a vs b

/-- the language has a phrase of spelled tokens -/
def HasPhrase (L : Language α) : Prop := ∃ ts a, (∀ t ∈ ts, t.IsSpelled) ∧ L ts a

/-- what can come of reading at a cursor -/
structure Spec (L : Language α) (c : Cursor) (out : Except Diagnostic α × Cursor) : Prop where
  leads : c.Leads out.2
  ok : ∀ a, out.1 = .ok a → out.2.recorded = c.recorded → ∃ us, c.rest = us ++ out.2.rest ∧ L us a
  blames : ∀ e, out.1 = .error e → c.Blames e
  place : ∀ e, out.1 = .error e → e.incomplete = true → e.pos = c.finish
  mend : ∀ e, out.1 = .error e → e.incomplete = true → out.2.recorded = c.recorded →
    ∃ ts a, (∀ t ∈ ts, t.IsSpelled) ∧ L (c.rest ++ ts) a
  idle : c.rest = [] → out.2 = c ∧ ∀ e, out.1 = .error e → e.incomplete = true

/-- the step reads phrases of the language -/
structure Reads (L : Language α) (r : Reader α) : Prop where
  spec : ∀ c : Cursor, c.Proper → Spec L c (r c)
  phrase : HasPhrase L

/-- a larger language, as far as the tokens at hand are concerned -/
theorem Spec.imp {L M : Language α} {c : Cursor} {out : Except Diagnostic α × Cursor} (h : Spec L c out)
    (hLM : ∀ us a, us <+: c.rest ∨ c.rest <+: us → L us a → M us a) : Spec M c out where
  leads := h.leads
  ok a ha hr := by
    obtain ⟨us, hus, hL⟩ := h.ok a ha hr
    exact ⟨us, hus, hLM us a (Or.inl ⟨_, hus.symm⟩) hL⟩
  blames := h.blames
  place := h.place
  mend e he hi hr := by
    obtain ⟨ts, a, hts, hL⟩ := h.mend e he hi hr
    exact ⟨ts, a, hts, hLM _ a (Or.inr (List.prefix_append _ _)) hL⟩
  idle := h.idle

theorem Reads.imp {L M : Language α} {r : Reader α} (h : Reads L r) (hLM : ∀ us a, L us a → M us a) : Reads M r := by
  obtain ⟨ts, a, hts, hL⟩ := h.phrase
  exact ⟨fun c hc => (h.spec c hc).imp fun us a _ => hLM us a, ts, a, hts, hLM ts a hL⟩

theorem HasPhrase.seq {L : Language α} {M : α → Language β} (hL : HasPhrase L) (hM : ∀ a, HasPhrase (M a)) :
    HasPhrase (Seq L M) := by
  obtain ⟨us, a, hus, ha⟩ := hL
  obtain ⟨vs, b, hvs, hb⟩ := hM a
  refine ⟨us ++ vs, b, ?_, us, vs, a, rfl, ha, hb⟩
  intro t ht
  rcases List.mem_append.1 ht with ht | ht
  · exact hus t ht
  · exact hvs t ht

theorem Spec.pure {a : α} {c : Cursor} : Spec (Nothing a) c ((Pure.pure a : Reader α) c) where
  leads := Cursor.Leads.refl c
  ok b hb _ := by
    simp only [Action.pure_apply, Except.ok.injEq] at hb
    exact ⟨[], rfl, rfl, hb.symm⟩
  blames e he := by simp at he
  place e he := by simp at he
  mend e he := by simp at he
  idle _ := ⟨rfl, fun e he => by simp at he⟩

theorem Reads.pure (a : α) : Reads (Nothing a) (Pure.pure a) :=
  ⟨fun _ _ => Spec.pure, [], a, by simp, rfl, rfl⟩

/-- **Sequencing.** The first step fails, or the second runs where the first ended. A failure of the second can be
mended behind the tokens of the first; a failure of the first is mended and followed by any phrase of the second. -/
theorem Spec.bind {L : Language α} {M : α → Language β} {r : Reader α} {f : α → Reader β} {c : Cursor}
    (hc : c.Proper) (h : Spec L c (r c)) (hf : ∀ a, Reads (M a) (f a)) : Spec (Seq L M) c ((r >>= f) c) := by
  rw [Action.bind_apply]
  rcases hr : r c with ⟨_ | a, d⟩
  · rename_i e
    rw [hr] at h
    refine ⟨h.leads, fun a ha => by simp at ha, fun e' he => h.blames e' ?_, fun e' he => h.place e' ?_, ?_, ?_⟩
    · simpa using he
    · simpa using he
    · intro e' he hi hrec
      obtain ⟨ts, a, hts, hL⟩ := h.mend e' (by simpa using he) hi hrec
      obtain ⟨us, b, hus, hM⟩ := (hf a).phrase
      refine ⟨ts ++ us, b, ?_, c.rest ++ ts, us, a, (List.append_assoc _ _ _).symm, hL, hM⟩
      intro t ht
      rcases List.mem_append.1 ht with ht | ht
      · exact hts t ht
      · exact hus t ht
    · intro hnil
      exact ⟨(h.idle hnil).1, fun e' he => (h.idle hnil).2 e' (by simpa using he)⟩
  · rw [hr] at h
    have h₂ := (hf a).spec d (h.leads.proper hc)
    refine ⟨h.leads.trans h₂.leads, ?_, fun e he => (h₂.blames e he).mono h.leads.rest h.leads.finish,
      fun e he hi => (h₂.place e he hi).trans h.leads.finish, ?_, ?_⟩
    · intro b hb hrec
      obtain ⟨e₁, e₂⟩ := h.leads.recorded_eq h₂.leads hrec
      obtain ⟨us, hus, hL⟩ := h.ok a rfl e₁
      obtain ⟨vs, hvs, hM⟩ := h₂.ok b hb e₂
      refine ⟨us ++ vs, ?_, us, vs, a, rfl, hL, hM⟩
      rw [hus, hvs, List.append_assoc]
    · intro e he hi hrec
      obtain ⟨e₁, e₂⟩ := h.leads.recorded_eq h₂.leads hrec
      obtain ⟨us, hus, hL⟩ := h.ok a rfl e₁
      obtain ⟨ts, b, hts, hM⟩ := h₂.mend e he hi e₂
      refine ⟨ts, b, hts, us, d.rest ++ ts, a, ?_, hL, hM⟩
      rw [hus, List.append_assoc]
    · intro hnil
      obtain rfl : d = c := (h.idle hnil).1
      exact h₂.idle hnil

theorem Reads.bind {L : Language α} {M : α → Language β} {r : Reader α} {f : α → Reader β} (h : Reads L r)
    (hf : ∀ a, Reads (M a) (f a)) : Reads (Seq L M) (r >>= f) :=
  ⟨fun c hc => (h.spec c hc).bind hc hf, h.phrase.seq fun a => (hf a).phrase⟩

/-- once a fault is recorded, reading on tells nothing about the language -/
theorem Spec.afterFault {L M : Language α} {c d : Cursor} {out : Except Diagnostic α × Cursor} (hl : c.Leads d)
    (hrest : c.rest ≠ []) (hne : d.recorded ≠ c.recorded) (h : Spec L d out) : Spec M c out where
  leads := hl.trans h.leads
  ok _ _ hrec := absurd (hl.recorded_eq h.leads hrec).1 hne
  blames e he := (h.blames e he).mono hl.rest hl.finish
  place e he hi := (h.place e he hi).trans hl.finish
  mend _ _ _ hrec := absurd (hl.recorded_eq h.leads hrec).1 hne
  idle hnil := absurd hnil hrest

/-! ## Single tokens -/

/-- a spelled token of each kind that a reader can ask for -/
theorem exists_isSpelled {k : TokenKind} {w : Bytes} (h : k.spelling? = some w) : ∃ t : Token, t.IsSpelled ∧ t.kind = k :=
  ⟨⟨k, w, .none, .unknown⟩, .fixed h, rfl⟩

/-- a name -/
def sampleName : Token := ⟨.identifier, text "x", .text (text "x"), .unknown⟩

theorem sampleName_isSpelled : sampleName.IsSpelled :=
  Spelled.name (b := 120) (w := []) (by decide) (by simp) (by decide)

/-- failing at the next token, when some phrase starts with what could stand there -/
theorem Spec.failAtToken {L : Language α} {c : Cursor} (hc : c.Proper) (hL : HasPhrase L) {fault : Token → Fault}
    (hf : ∀ t, (fault t).kind.phase = .parsing) : Spec L c ((Parse.failAtToken c.peek fault : Reader α) c) where
  leads := Cursor.Leads.refl c
  ok a ha := by simp at ha
  blames e he := by
    simp only [failAtToken_apply, Except.error.injEq] at he
    subst he
    exact ⟨hf _, c.peek_place⟩
  place e he hi := by
    simp only [failAtToken_apply, Except.error.injEq] at he
    subst he
    have hend : c.peek.kind = .endOfInput := by simpa using hi
    obtain ⟨rest, finish, recorded⟩ := c
    rw [hc.peek_kind] at hend
    simp only at hend
    subst hend
    rfl
  mend e he hi _ := by
    simp only [failAtToken_apply, Except.error.injEq] at he
    subst he
    have hend : c.rest = [] := hc.peek_kind.1 (by simpa using hi)
    obtain ⟨ts, a, hts, hLts⟩ := hL
    exact ⟨ts, a, hts, by rw [hend]; exact hLts⟩
  idle hnil := by
    refine ⟨rfl, fun e he => ?_⟩
    simp only [failAtToken_apply, Except.error.injEq] at he
    subst he
    simpa using hc.peek_kind.2 hnil

/-- reading the next token where there is one -/
theorem Spec.advance {c : Cursor} (hne : c.peek.kind ≠ .endOfInput) : Spec (This c.peek) c (Parse.advance c) where
  leads := Cursor.Leads.tail c
  ok t ht _ := by
    simp only [advance_apply, Except.ok.injEq] at ht
    exact ⟨[c.peek], Cursor.rest_of_peek hne, rfl, ht.symm⟩
  blames e he := by simp at he
  place e he := by simp at he
  mend e he := by simp at he
  idle hnil := by
    rw [Cursor.rest_of_peek hne] at hnil
    exact absurd hnil (List.cons_ne_nil _ _)

theorem Reads.need {k : TokenKind} (hne : k ≠ .endOfInput) (hk : ∃ t : Token, t.IsSpelled ∧ t.kind = k) :
    Reads (One k) (Parse.need k) := by
  have hinh : HasPhrase (One k) := by
    obtain ⟨t, ht, htk⟩ := hk
    exact ⟨[t], t, by simpa using ht, rfl, htk⟩
  refine ⟨fun c hc => ?_, hinh⟩
  rw [need_apply]
  split
  next h =>
    refine (Spec.advance (by rw [h]; exact hne)).imp ?_
    rintro us t - ⟨rfl, rfl⟩
    exact ⟨rfl, h⟩
  next => exact Spec.failAtToken hc hinh fun _ => rfl

/-- reading a word or sign -/
theorem Reads.needFixed {k : TokenKind} {w : Bytes} (h : k.spelling? = some w) : Reads (One k) (Parse.need k) := by
  refine Reads.need ?_ (exists_isSpelled h)
  rintro rfl
  exact absurd h (by simp [TokenKind.spelling?])

/-- reading a name -/
theorem Reads.needName : Reads (One .identifier) (Parse.need .identifier) :=
  Reads.need (by decide) ⟨sampleName, sampleName_isSpelled, rfl⟩

/-- a step that depends on the number of tokens left -/
theorem Reads.remaining {L : Language β} {f : Nat → Reader β} (h : ∀ n, Reads L (f n)) :
    Reads L (Parse.remaining >>= f) :=
  ⟨fun c hc => (h c.rest.length).spec c hc, (h 0).phrase⟩

/-- a word or sign that may be missing: with it the one step follows, without it the other -/
theorem Spec.accept {L : Language β} {k : TokenKind} {f : Bool → Reader β} {c : Cursor} (hc : c.Proper)
    (hne : k ≠ .endOfInput) {M : Language β} (hyes : Reads M (f true)) (hno : Spec L c (f false c))
    (hM : ∀ t us b, t.kind = k → M us b → L (t :: us) b) : Spec L c ((Parse.accept k >>= f) c) := by
  rw [Action.bind_apply, accept_apply]
  by_cases h : c.peek.kind = k
  · rw [if_pos h]
    -- the word is there: the rest is read behind it
    have hadv : Spec (Seq (This c.peek) fun _ => M) c ((Parse.advance >>= fun _ => f true) c) :=
      (Spec.advance (by rw [h]; exact hne)).bind hc fun _ => hyes
    refine hadv.imp ?_
    rintro _ b - ⟨_, vs, t, rfl, ⟨rfl, rfl⟩, hb⟩
    exact hM _ vs b h hb
  · rw [if_neg h]
    exact hno

end Parse

end Ouroboros
