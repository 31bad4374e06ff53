/-
What reading source text gives, piece by piece.

Where no blank stands, a text starts with a token of the bytes in front, a string or a stray character, and the piece that
is read there is the same at every place (`starts`). Every token of a text is spelled (`nextPiece_isSpelled`), and the
tokens end with the one end of input (`exists_tokens_eq`). A fault of the text lies before the end of the text
(`scanFrom_passes`): each piece ends behind the faults in it.
-/
import Mathlib.Data.List.TakeWhile
import Ouroboros.Proofs.Lexemes

namespace Ouroboros

namespace Pos

/-- at a place or before it -/
def UpTo (p q : Pos) : Prop := p = q ∨ p.before q = true

theorem before_iff {p q : Pos} : p.before q = true ↔ p.line < q.line ∨ (p.line = q.line ∧ p.col < q.col) := by
  simp [before]

theorem before_trans {p q r : Pos} (h₁ : p.before q = true) (h₂ : q.before r = true) : p.before r = true := by
  rw [before_iff] at h₁ h₂ ⊢
  omega

theorem before_irrefl (p : Pos) : p.before p = false := by
  simp [before]

theorem UpTo.refl (p : Pos) : p.UpTo p := Or.inl rfl

theorem UpTo.before {p q r : Pos} (h₁ : p.before q = true) (h₂ : q.UpTo r) : p.before r = true := by
  rcases h₂ with rfl | h₂
  · exact h₁
  · exact before_trans h₁ h₂

theorem UpTo.trans {p q r : Pos} (h₁ : p.UpTo q) (h₂ : q.UpTo r) : p.UpTo r := by
  rcases h₁ with rfl | h₁
  · exact h₂
  · exact Or.inr (UpTo.before h₁ h₂)

theorem before_next (p : Pos) (b : UInt8) : p.before (p.next b) = true := by
  rw [before_iff, next]
  split <;> dsimp only <;> omega

theorem upTo_next (p : Pos) (b : UInt8) : p.UpTo (p.next b) := Or.inr (before_next p b)

theorem upTo_after (p : Pos) (t : Bytes) : p.UpTo (p.after t) := by
  induction t generalizing p with
  | nil => exact UpTo.refl p
  | cons b t ih => exact (upTo_next p b).trans (ih (p.next b))

end Pos

namespace Token

/-! ## One piece after the other -/

theorem scanFrom_end {p q : Pos} {t : Bytes} (h : skipBlanks false p t = (q, [])) :
    scanFrom p t = ⟨[.finish q], []⟩ := by
  rw [scanFrom]
  split
  · rename_i h'
    rw [h] at h'
    cases h'
    rfl
  · rename_i h'
    rw [h] at h'
    cases h'

theorem scanFrom_next {p q : Pos} {t : Bytes} {b : UInt8} {rest : Bytes} (h : skipBlanks false p t = (q, b :: rest)) :
    scanFrom p t = ⟨(nextPiece q b rest).token?.toList ++
        (scanFrom (nextPiece q b rest).pos (nextPiece q b rest).rest).tokens,
      (nextPiece q b rest).faults ++ (scanFrom (nextPiece q b rest).pos (nextPiece q b rest).rest).errors⟩ := by
  rw [scanFrom]
  split
  · rename_i h'
    rw [h] at h'
    cases h'
  · rename_i h'
    rw [h] at h'
    cases h'
    rfl

/-- reading depends only on what is left behind blanks -/
theorem scanFrom_congr {p q : Pos} {t u : Bytes} (h : skipBlanks false p t = skipBlanks false q u) :
    scanFrom p t = scanFrom q u := by
  rcases hu : skipBlanks false q u with ⟨r, _ | ⟨b, rest⟩⟩
  · rw [scanFrom_end (h.trans hu), scanFrom_end hu]
  · rw [scanFrom_next (h.trans hu), scanFrom_next hu]

/-- induction over the pieces of a text -/
theorem scan_induction {motive : Pos → Bytes → Prop}
    (hend : ∀ p t q, skipBlanks false p t = (q, []) → motive p t)
    (hnext : ∀ p t q b rest, skipBlanks false p t = (q, b :: rest) →
      motive (nextPiece q b rest).pos (nextPiece q b rest).rest → motive p t) (p : Pos) (t : Bytes) : motive p t := by
  induction p, t using scanFrom.induct with
  | case1 p t q h => exact hend p t q h
  | case2 p t q b rest h _ ih => exact hnext p t q b rest h ih

/-- a fraction is cut off the text behind the whole part -/
theorem fraction_append_eq (t : Bytes) : (fraction t).1 ++ (fraction t).2 = t := by
  unfold fraction
  split
  · split
    · simp only [List.cons_append, List.takeWhile_append_dropWhile]
    · rfl
  · rfl

/-! ## Strings byte by byte -/

section Strings

variable (p : Pos) (rest : Bytes)

theorem stringBody_quote :
    stringBody p (Bytes.quote :: rest) = ⟨[], [Bytes.quote], [], .closed, p.next Bytes.quote, rest⟩ := by
  rw [stringBody.eq_def]
  simp

theorem stringBody_newline :
    stringBody p (Bytes.newline :: rest) = ⟨[], [], [], .line, p, Bytes.newline :: rest⟩ := by
  rw [stringBody.eq_def]
  simp [show Bytes.newline ≠ Bytes.quote by decide]

theorem stringBody_escape {e c : UInt8} (h : unescape? e = some c) :
    stringBody p (Bytes.backslash :: e :: rest) =
      { stringBody ((p.next Bytes.backslash).next e) rest with
        payload := c :: (stringBody ((p.next Bytes.backslash).next e) rest).payload
        raw := Bytes.backslash :: e :: (stringBody ((p.next Bytes.backslash).next e) rest).raw } := by
  rw [stringBody.eq_def]
  simp [h, show Bytes.backslash ≠ Bytes.quote by decide, show Bytes.backslash ≠ Bytes.newline by decide]

theorem stringBody_badEscape {e : UInt8} (h : unescape? e = none) :
    stringBody p (Bytes.backslash :: e :: rest) =
      { stringBody ((p.next Bytes.backslash).next e) rest with
        raw := Bytes.backslash :: e :: (stringBody ((p.next Bytes.backslash).next e) rest).raw
        faults := ⟨.badEscape e p.line, p, [], false⟩ :: (stringBody ((p.next Bytes.backslash).next e) rest).faults } := by
  rw [stringBody.eq_def]
  simp [h, show Bytes.backslash ≠ Bytes.quote by decide, show Bytes.backslash ≠ Bytes.newline by decide]

theorem stringBody_byte {b : UInt8} (hq : b ≠ Bytes.quote) (hn : b ≠ Bytes.newline) (hs : b ≠ Bytes.backslash) :
    stringBody p (b :: rest) =
      { stringBody (p.next b) rest with
        payload := b :: (stringBody (p.next b) rest).payload
        raw := b :: (stringBody (p.next b) rest).raw } := by
  rw [stringBody.eq_def]
  simp [hq, hn, hs]

end Strings

/-! ## Spelled tokens -/

theorem spelling_of_ofWord {w : Bytes} (h : TokenKind.ofWord w ≠ .identifier) :
    (TokenKind.ofWord w).spelling? = some w := by
  unfold TokenKind.ofWord at h ⊢
  cases hk : TokenKind.keywords.lookup w with
  | none =>
    rw [hk] at h
    exact absurd rfl h
  | some k =>
    have hmem : (w, k) ∈ TokenKind.keywords := by
      obtain ⟨l₁, l₂, heq, -⟩ := List.lookup_eq_some_iff.1 hk
      rw [heq]
      simp
    have hall : ∀ e ∈ TokenKind.keywords, e.2.spelling? = some e.1 := by decide
    exact hall _ hmem

theorem cases_of_ite_eq_some {α : Type} {c : Prop} [Decidable c] {k x : α} {r : Option α}
    (h : (if c then some k else r) = some x) : (c ∧ k = x) ∨ r = some x := by
  split at h
  · rename_i hc
    exact Or.inl ⟨hc, Option.some.inj h⟩
  · exact Or.inr h

theorem spelling_of_ofSign {b : UInt8} {k : TokenKind} (h : TokenKind.ofSign? b = some k) : k.spelling? = some [b] := by
  unfold TokenKind.ofSign? at h
  iterate 13
    rcases cases_of_ite_eq_some h with ⟨rfl, rfl⟩ | h
    · rfl
  cases h

theorem wordPiece_isSpelled {p : Pos} {b : UInt8} {rest : Bytes} (hb : Bytes.isLetter b = true) {t : Token}
    (h : (wordPiece p b rest).token? = some t) : t.IsSpelled := by
  obtain rfl : _ = t := Option.some.inj h
  by_cases hk : TokenKind.ofWord (b :: rest.takeWhile Bytes.isNameByte) = .identifier
  · simp only [IsSpelled, hk, if_true]
    exact .name hb (fun x hx => List.mem_takeWhile_imp hx) hk
  · simp only [IsSpelled, if_neg hk]
    exact .fixed (spelling_of_ofWord hk)

/-- a numeral is whole, or has a fraction -/
theorem numeralPiece_isSpelled {p : Pos} {b : UInt8} {rest : Bytes} (hb : Bytes.isDigit b = true) {t : Token}
    (h : (numeralPiece p b rest).token? = some t) : t.IsSpelled := by
  obtain rfl : _ = t := Option.some.inj h
  have hwhole : ∀ x ∈ rest.takeWhile Bytes.isDigit, Bytes.isDigit x = true := fun x hx => List.mem_takeWhile_imp hx
  simp only [IsSpelled]
  split
  · rename_i dot d after _
    split
    · rename_i hdot
      obtain ⟨rfl, hd⟩ := hdot
      exact .decimal hb hwhole hd fun x hx => List.mem_takeWhile_imp hx
    · rw [List.append_nil]
      exact .whole hb hwhole
  · rw [List.append_nil]
    exact .whole hb hwhole

theorem stringPiece_isSpelled {p : Pos} {b : UInt8} {rest : Bytes} {t : Token}
    (h : (stringPiece p b rest).token? = some t) : t.IsSpelled := by
  unfold stringPiece at h
  dsimp only at h
  split at h
  · obtain rfl : _ = t := Option.some.inj h
    exact .string
  · cases h
  · cases h

theorem longSign?_eq_some {b : UInt8} {rest : Bytes} {k : TokenKind} (h : longSign? b rest = some k) :
    ∃ c after, rest = c :: after ∧
      (b = Bytes.minus ∧ c = 62 ∧ k = .arrow ∨ b = Bytes.point ∧ c = Bytes.point ∧ k = .dots) := by
  unfold longSign? at h
  rcases cases_of_ite_eq_some h with ⟨⟨rfl, hhead⟩, rfl⟩ | h
  · obtain ⟨after, rfl⟩ := List.head?_eq_some_iff.1 hhead
    exact ⟨62, after, rfl, .inl ⟨rfl, rfl, rfl⟩⟩
  · rcases cases_of_ite_eq_some h with ⟨⟨rfl, hhead⟩, rfl⟩ | h
    · obtain ⟨after, rfl⟩ := List.head?_eq_some_iff.1 hhead
      exact ⟨Bytes.point, after, rfl, .inr ⟨rfl, rfl, rfl⟩⟩
    · cases h

theorem ne_stringLiteral_of_spelling {k : TokenKind} {w : Bytes} (h : k.spelling? = some w) : k ≠ .stringLiteral := by
  rintro rfl
  cases h

/-- what a text starts with where no blank stands, and the piece that is read there, whatever the place: a token that is no
string, of the bytes in front; a string; or a stray character -/
inductive Starts (b : UInt8) (rest : Bytes) : Prop where
  | token {kind : TokenKind} {literal : Literal} {w after : Bytes} (hquote : b ≠ Bytes.quote) (hkind : kind ≠ .stringLiteral)
      (hspelled : Spelled kind (b :: w) literal) (hcut : w ++ after = rest)
      (hpiece : ∀ p, nextPiece p b rest = piece kind (b :: w) literal p after)
  | string (hquote : b = Bytes.quote) (hpiece : ∀ p, nextPiece p b rest = stringPiece p b rest)
  | stray (hquote : b ≠ Bytes.quote) (hpiece : ∀ p, nextPiece p b rest = strayPiece p b rest)

theorem Starts.of_spelling {b : UInt8} {rest w after : Bytes} {kind : TokenKind} (hquote : b ≠ Bytes.quote)
    (hspelling : kind.spelling? = some (b :: w)) (hcut : w ++ after = rest)
    (hpiece : ∀ p, nextPiece p b rest = piece kind (b :: w) .none p after) : Starts b rest :=
  .token hquote (ne_stringLiteral_of_spelling hspelling) (.fixed hspelling) hcut hpiece

theorem starts_word {b : UInt8} (hb : Bytes.isLetter b = true) (rest : Bytes) : Starts b rest := by
  have hquote : b ≠ Bytes.quote := by
    rintro rfl
    cases hb
  have hkind : TokenKind.ofWord (b :: rest.takeWhile Bytes.isNameByte) ≠ .stringLiteral := by
    intro h
    have hspelling := spelling_of_ofWord (w := b :: rest.takeWhile Bytes.isNameByte) (by simp [h])
    exact ne_stringLiteral_of_spelling hspelling h
  exact .token hquote hkind (@wordPiece_isSpelled .start b rest hb _ rfl) List.takeWhile_append_dropWhile fun p => if_pos hb

theorem starts_numeral {b : UInt8} (hletter : ¬Bytes.isLetter b = true) (hb : Bytes.isDigit b = true) (rest : Bytes) :
    Starts b rest := by
  have hquote : b ≠ Bytes.quote := by
    rintro rfl
    cases hb
  have hspelled : Spelled .number
      (b :: (rest.takeWhile Bytes.isDigit ++ (fraction (rest.dropWhile Bytes.isDigit)).1))
      (.number (readNumeral (b :: (rest.takeWhile Bytes.isDigit ++ (fraction (rest.dropWhile Bytes.isDigit)).1)))) :=
    @numeralPiece_isSpelled .start b rest hb _ rfl
  have hcut : rest.takeWhile Bytes.isDigit ++ (fraction (rest.dropWhile Bytes.isDigit)).1 ++
      (fraction (rest.dropWhile Bytes.isDigit)).2 = rest := by
    rw [List.append_assoc, fraction_append_eq, List.takeWhile_append_dropWhile]
  exact .token hquote (by decide) hspelled hcut fun p => (if_neg hletter).trans (if_pos hb)

theorem starts (b : UInt8) (rest : Bytes) : Starts b rest := by
  by_cases hletter : Bytes.isLetter b = true
  · exact starts_word hletter rest
  by_cases hdigit : Bytes.isDigit b = true
  · exact starts_numeral hletter hdigit rest
  have hother : ∀ p, nextPiece p b rest = if b = Bytes.quote then stringPiece p b rest else signPiece p b rest :=
    fun p => (if_neg hletter).trans (if_neg hdigit)
  by_cases hquote : b = Bytes.quote
  · exact .string hquote fun p => (hother p).trans (if_pos hquote)
  have hsign : ∀ p, nextPiece p b rest = signPiece p b rest := fun p => (hother p).trans (if_neg hquote)
  simp only [signPiece] at hsign
  cases hlong : longSign? b rest with
  | some kind =>
    simp only [hlong] at hsign
    obtain ⟨c, after, rfl, ⟨rfl, rfl, rfl⟩ | ⟨rfl, rfl, rfl⟩⟩ := longSign?_eq_some hlong
    · exact .of_spelling hquote rfl rfl hsign
    · exact .of_spelling hquote rfl rfl hsign
  | none =>
    cases hshort : TokenKind.ofSign? b with
    | some kind =>
      simp only [hlong, hshort] at hsign
      exact .of_spelling hquote (spelling_of_ofSign hshort) (List.nil_append rest) hsign
    | none =>
      simp only [hlong, hshort] at hsign
      exact .stray hquote hsign

theorem nextPiece_isSpelled {p : Pos} {b : UInt8} {rest : Bytes} {t : Token}
    (h : (nextPiece p b rest).token? = some t) : t.IsSpelled := by
  cases starts b rest with
  | token _ _ hspelled _ hpiece =>
    rw [hpiece] at h
    cases h
    exact hspelled
  | string _ hpiece =>
    rw [hpiece] at h
    exact stringPiece_isSpelled h
  | stray _ hpiece =>
    rw [hpiece] at h
    cases h

/-- the tokens of a text are spelled, and the end of input follows them -/
theorem exists_tokens_eq (p : Pos) (t : Bytes) :
    ∃ ts q, (scanFrom p t).tokens = ts ++ [.finish q] ∧ ∀ x ∈ ts, x.IsSpelled := by
  induction p, t using scan_induction with
  | hend p t q h => exact ⟨[], q, by rw [scanFrom_end h]; rfl, by simp⟩
  | hnext p t q b rest h ih =>
    obtain ⟨ts, q', heq, hts⟩ := ih
    refine ⟨(nextPiece q b rest).token?.toList ++ ts, q', ?_, ?_⟩
    · rw [scanFrom_next h, heq, List.append_assoc]
    · intro x hx
      rcases List.mem_append.1 hx with hx | hx
      · exact nextPiece_isSpelled (Option.mem_toList.1 hx)
      · exact hts x hx

/-! ## Places of tokens and faults -/

/-- a token stands where its piece starts -/
theorem pos_of_nextPiece {p : Pos} {b : UInt8} {rest : Bytes} {t : Token} (h : (nextPiece p b rest).token? = some t) :
    t.pos = p := by
  cases starts b rest with
  | token _ _ _ _ hpiece =>
    rw [hpiece] at h
    cases h
    rfl
  | string _ hpiece =>
    rw [hpiece, stringPiece] at h
    split at h <;> cases h
    rfl
  | stray _ hpiece =>
    rw [hpiece] at h
    cases h

theorem upTo_skipBlanks (comment : Bool) (p : Pos) (t : Bytes) : p.UpTo (skipBlanks comment p t).1 := by
  fun_induction skipBlanks comment p t with
  | case1 _ p | case5 p _ _ _ _ => exact .refl p
  | case2 p b _ ih | case3 p b _ _ ih | case4 p b _ _ _ ih => exact (Pos.upTo_next p b).trans ih

/-- reading went on from `p` to `q`, past the faults, all of them lexical ones; only an open string is due to the end of the
text -/
structure Passes (p : Pos) (faults : List Diagnostic) (q : Pos) : Prop where
  upTo : p.UpTo q
  behind : ∀ e ∈ faults, p.UpTo e.pos
  before : ∀ e ∈ faults, e.pos.before q = true
  lexical : ∀ e ∈ faults, e.kind.phase = .lexing
  unfinished : ∀ e ∈ faults, e.incomplete = true → e.kind = .unterminatedString

theorem Passes.nil {p q : Pos} (h : p.UpTo q) : Passes p [] q := ⟨h, by simp, by simp, by simp, by simp⟩

theorem Passes.from {p p' q : Pos} {faults : List Diagnostic} (h : p.UpTo p') (h' : Passes p' faults q) :
    Passes p faults q :=
  ⟨h.trans h'.upTo, fun e he => h.trans (h'.behind e he), h'.before, h'.lexical, h'.unfinished⟩

/-- a fault where reading started, passed by at least one byte -/
theorem Passes.one {p q : Pos} (h : p.before q = true) {e : Diagnostic} (he : e.pos = p)
    (hphase : e.kind.phase = .lexing) (hkind : e.incomplete = true → e.kind = .unterminatedString) : Passes p [e] q := by
  refine ⟨Or.inr h, ?_, ?_, ?_, ?_⟩ <;> rw [List.forall_mem_singleton]
  · exact .inl he.symm
  · rw [he]
    exact h
  · exact hphase
  · exact hkind

theorem Passes.append {p q r : Pos} {faults others : List Diagnostic} (h : Passes p faults q)
    (h' : Passes q others r) : Passes p (faults ++ others) r := by
  refine ⟨h.upTo.trans h'.upTo, ?_, ?_, ?_, ?_⟩ <;> rw [List.forall_mem_append]
  · exact ⟨h.behind, fun e he => h.upTo.trans (h'.behind e he)⟩
  · exact ⟨fun e he => Pos.UpTo.before (h.before e he) h'.upTo, h'.before⟩
  · exact ⟨h.lexical, h'.lexical⟩
  · exact ⟨h.unfinished, h'.unfinished⟩

theorem stringBody_passes (p : Pos) (t : Bytes) : Passes p (stringBody p t).faults (stringBody p t).pos := by
  fun_induction stringBody p t with
  | case1 p => exact .nil (.refl p)
  | case2 p rest => exact .nil (Pos.upTo_next p Bytes.quote)
  | case3 p rest => exact .nil (.refl p)
  | case4 p => exact .nil (Pos.upTo_next p Bytes.backslash)
  | case5 p e rest c _ _ _ body ih => exact ih.from ((Pos.upTo_next p _).trans (Pos.upTo_next _ e))
  | case6 p e rest _ _ _ body ih =>
    exact (Passes.one (Pos.UpTo.before (Pos.before_next p _) (Pos.upTo_next _ e)) rfl rfl (by simp)).append ih
  | case7 p b rest _ _ _ body ih => exact ih.from (Pos.upTo_next p b)

theorem nextPiece_passes (p : Pos) (b : UInt8) (rest : Bytes) :
    Passes p (nextPiece p b rest).faults (nextPiece p b rest).pos := by
  cases starts b rest with
  | token _ _ _ _ hpiece =>
    rw [hpiece]
    exact .nil (Pos.upTo_after p _)
  | string _ hpiece =>
    -- an unfinished string is a fault at its opening quote
    have hbody := stringBody_passes (p.next b) rest
    have hopen : ∀ d : Diagnostic, d.pos = p → d.kind = .unterminatedString →
        Passes p ((stringBody (p.next b) rest).faults ++ [d]) (stringBody (p.next b) rest).pos := by
      intro d hd hkind
      have hphase : d.kind.phase = .lexing := by
        rw [hkind]
        rfl
      have hone := Passes.one (Pos.UpTo.before (Pos.before_next p b) hbody.upTo) hd hphase fun _ => hkind
      have hinside := hbody.from (Pos.upTo_next p b)
      refine ⟨hone.upTo, ?_, ?_, ?_, ?_⟩ <;> rw [List.forall_mem_append]
      · exact ⟨hinside.behind, hone.behind⟩
      · exact ⟨hbody.before, hone.before⟩
      · exact ⟨hbody.lexical, hone.lexical⟩
      · exact ⟨hbody.unfinished, hone.unfinished⟩
    rw [hpiece, stringPiece]
    split
    · exact hbody.from (Pos.upTo_next p b)
    · exact hopen _ rfl rfl
    · exact hopen _ rfl rfl
  | stray _ hpiece =>
    have hcol : p.before ⟨p.line, p.col + 1⟩ = true := by
      rw [Pos.before_iff]
      dsimp only
      omega
    rw [hpiece]
    exact .one hcol rfl rfl nofun

/-- **Faults lie before the end.** Every fault of a text lies before the place of its end. -/
theorem scanFrom_passes {p q : Pos} {t : Bytes} {ts : List Token}
    (h : (scanFrom p t).tokens = ts ++ [.finish q]) : Passes p (scanFrom p t).errors q := by
  induction p, t using scan_induction generalizing ts with
  | hend p t q' hblank =>
    have hp : p.UpTo q' := by
      have := upTo_skipBlanks false p t
      rwa [hblank] at this
    rw [scanFrom_end hblank] at h ⊢
    have hlast := congrArg List.getLast? h
    rw [List.getLast?_concat] at hlast
    simp only [List.getLast?_singleton, Option.some.injEq, Token.finish, Token.mk.injEq, true_and] at hlast
    rw [← hlast]
    exact .nil hp
  | hnext p t q' b rest hblank ih =>
    have hp : p.UpTo q' := by
      have := upTo_skipBlanks false p t
      rwa [hblank] at this
    obtain ⟨us, r, heq, -⟩ := exists_tokens_eq (nextPiece q' b rest).pos (nextPiece q' b rest).rest
    rw [scanFrom_next hblank] at h ⊢
    rw [heq] at h
    have hlast := congrArg List.getLast? h
    rw [← List.append_assoc, List.getLast?_concat, List.getLast?_concat] at hlast
    rw [Option.some.inj hlast] at heq
    exact ((nextPiece_passes q' b rest).append (ih heq)).from hp

end Token

end Ouroboros
