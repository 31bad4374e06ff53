/-
Writing tokens as text.

`Writes F w ts` says that the text `w`, in front of any text that `F` admits, is read as the tokens `ts`, which are given
in their plain form. Two conditions on what follows occur: none (`Closed`), and that it does not continue a word, a
numeral or a sign (`Loose`). Texts are put together by `Writes.append`. The canonical text of every spelled token is
loose (`loose_of_isSpelled`), and that of a sign which no byte can continue is closed (`closed_sign`). So any spelled
tokens can be written, each on a line of its own (`closed_written`).
-/
import Ouroboros.Proofs.Scanning.Pieces

namespace Ouroboros

namespace Token

/-- the text `w` in front of `u` is read as tokens whose plain form is `ts` -/
def Spells (w : Bytes) (ts : List Token) (u : Bytes) : Prop :=
  ∀ p, ∃ q us, scanFrom p (w ++ u) = ⟨us ++ (scanFrom q u).tokens, (scanFrom q u).errors⟩ ∧ us.map plain = ts

/-- the text is read as the tokens in front of whatever `F` admits -/
def Writes (F : Bytes → Prop) (w : Bytes) (ts : List Token) : Prop := ∀ u, F u → Spells w ts u

/-- whether a text does not continue a word, a numeral or a sign in front of it -/
def apart : Bytes → Bool
  | [] => true
  | b :: rest =>
    !Bytes.isNameByte b && b != 62 && b != Bytes.slash && !(b == Bytes.point && rest.head?.any Bytes.isDigit)

/-- read as the tokens in front of what does not continue them -/
abbrev Loose : Bytes → List Token → Prop := Writes fun u => apart u = true

/-- read as the tokens in front of anything -/
abbrev Closed : Bytes → List Token → Prop := Writes fun _ => True

/-! ## Putting texts together -/

section Append

variable {F G : Bytes → Prop} {w w₁ w₂ : Bytes} {ts ts₁ ts₂ : List Token}

theorem Writes.nil : Writes F [] [] := fun _ _ p => ⟨p, [], rfl, rfl⟩

theorem Writes.append (h₁ : Writes F w₁ ts₁) (h₂ : Writes G w₂ ts₂) (h : ∀ u, G u → F (w₂ ++ u)) :
    Writes G (w₁ ++ w₂) (ts₁ ++ ts₂) := by
  intro u hu p
  obtain ⟨q₁, us₁, hscan₁, hus₁⟩ := h₁ (w₂ ++ u) (h u hu) p
  obtain ⟨q₂, us₂, hscan₂, hus₂⟩ := h₂ u hu q₁
  refine ⟨q₂, us₁ ++ us₂, ?_, by rw [List.map_append, hus₁, hus₂]⟩
  rw [List.append_assoc, hscan₁, hscan₂, List.append_assoc]

theorem Writes.weaken (h : Writes F w ts) (hGF : ∀ u, G u → F u) : Writes G w ts := fun u hu => h u (hGF u hu)

theorem Closed.loose (h : Closed w ts) : Loose w ts := h.weaken fun _ _ => trivial

theorem Closed.append (h₁ : Closed w₁ ts₁) (h₂ : Writes G w₂ ts₂) : Writes G (w₁ ++ w₂) (ts₁ ++ ts₂) :=
  Writes.append h₁ h₂ fun _ _ => trivial

/-- a blank is no token -/
theorem closed_blank {b : UInt8} (hb : isBlankByte b = true) : Closed [b] [] := by
  intro u _ p
  refine ⟨p.next b, [], ?_, rfl⟩
  rw [scanFrom_congr (q := p.next b) (u := u)]
  · rfl
  · rw [List.singleton_append, skipBlanks, if_pos hb]

end Append

/-! ## Single tokens -/

/-- a text that is read as one piece without faults -/
theorem writes_piece {F : Bytes → Prop} {b : UInt8} {w : Bytes} {t : Token} (hb : isBlankByte b = false)
    (hslash : ∀ u, F u → ¬(b = Bytes.slash ∧ (w ++ u).head? = some Bytes.slash))
    (h : ∀ u, F u → ∀ p, ∃ q x, nextPiece p b (w ++ u) = ⟨some x, [], q, u⟩ ∧ x.plain = t) :
    Writes F (b :: w) [t] := by
  intro u hu p
  obtain ⟨q, x, hpiece, hx⟩ := h u hu p
  refine ⟨q, [x], ?_, by rw [List.map_singleton, hx]⟩
  have hblank : skipBlanks false p (b :: w ++ u) = (p, b :: (w ++ u)) := by
    rw [List.cons_append, skipBlanks, if_neg (by simp [hb]), if_neg (hslash u hu)]
  rw [scanFrom_next hblank, hpiece]
  rfl

section Bytes

variable {b : UInt8} {w u : Bytes}

theorem isNameByte_head (h : apart (b :: u) = true) : Bytes.isNameByte b = false := by
  simp only [apart, Bool.and_eq_true, Bool.not_eq_true'] at h
  exact h.1.1.1

theorem isDigit_head (h : apart (b :: u) = true) : Bytes.isDigit b = false := by
  have := isNameByte_head h
  simp only [Bytes.isNameByte, Bool.or_eq_false_iff] at this
  exact this.2

theorem takeWhile_append_apart {f : UInt8 → Bool} (hw : ∀ x ∈ w, f x = true) (hf : ∀ b u', u = b :: u' → f b = false) :
    (w ++ u).takeWhile f = w ∧ (w ++ u).dropWhile f = u := by
  rw [List.takeWhile_append_of_pos hw, List.dropWhile_append_of_pos hw]
  cases u with
  | nil => simp
  | cons b u =>
    have hb := hf b u rfl
    simp [hb]

theorem fraction_apart (h : apart u = true) : fraction u = ([], u) := by
  match u with
  | [] | [_] => rfl
  | dot :: d :: rest =>
    rw [fraction, if_neg]
    rintro ⟨rfl, hd⟩
    simp [apart, hd] at h

theorem isBlankByte_eq_false {f : UInt8 → Bool} (hb : f b = true)
    (hf : f 32 = false ∧ f 9 = false ∧ f 13 = false ∧ f 10 = false) : isBlankByte b = false := by
  rw [Bool.eq_false_iff]
  intro h
  simp only [isBlankByte, Bool.or_eq_true, beq_iff_eq] at h
  obtain ⟨h₁, h₂, h₃, h₄⟩ := hf
  rcases h with ((rfl | rfl) | rfl) | rfl
  · exact absurd hb (by rw [h₁]; decide)
  · exact absurd hb (by rw [h₂]; decide)
  · exact absurd hb (by rw [h₃]; decide)
  · exact absurd hb (by rw [h₄]; decide)

theorem ne_of_class {f : UInt8 → Bool} {c : UInt8} (hb : f b = true) (hc : f c = false) : b ≠ c := by
  rintro rfl
  rw [hc] at hb
  exact absurd hb (by decide)

theorem isLetter_of_isDigit (hb : Bytes.isDigit b = true) : Bytes.isLetter b = false := by
  rw [Bool.eq_false_iff]
  intro h
  simp only [Bytes.isDigit, Bytes.isLetter, Bool.and_eq_true, Bool.or_eq_true, decide_eq_true_eq, beq_iff_eq] at hb h
  rcases h with (h | h) | rfl
  · exact absurd (UInt8.le_trans h.1 hb.2) (by decide)
  · exact absurd (UInt8.le_trans h.1 hb.2) (by decide)
  · exact absurd hb.2 (by decide)

/-- a name or a keyword -/
theorem loose_word {k : TokenKind} {l : Literal} (hb : Bytes.isLetter b = true)
    (hw : ∀ x ∈ w, Bytes.isNameByte x = true) (hk : TokenKind.ofWord (b :: w) = k)
    (hl : l = if k = .identifier then .text (b :: w) else .none) : Loose (b :: w) [⟨k, b :: w, l, .unknown⟩] := by
  have hne : k ≠ .stringLiteral := by
    rintro rfl
    have := spelling_of_ofWord (w := b :: w) (by rw [hk]; decide)
    rw [hk] at this
    cases this
  refine writes_piece (isBlankByte_eq_false hb (by decide)) (fun u _ h => ne_of_class hb (by decide) h.1) ?_
  intro u hu p
  obtain ⟨htake, hdrop⟩ := takeWhile_append_apart (u := u) hw (by rintro b u' rfl; exact isNameByte_head hu)
  refine ⟨p.after (b :: w), ⟨k, b :: w, l, p⟩, ?_, by simp [plain, hne]⟩
  rw [nextPiece, if_pos hb, wordPiece, htake, hdrop, hk, hl]
  rfl

/-- a numeral, given how its text is cut -/
theorem loose_numeral {lexeme : Bytes} (hb : Bytes.isDigit b = true)
    (h : ∀ u, apart u = true → b :: (w ++ u).takeWhile Bytes.isDigit ++ (fraction ((w ++ u).dropWhile Bytes.isDigit)).1 =
      lexeme ∧ (fraction ((w ++ u).dropWhile Bytes.isDigit)).2 = u) :
    Loose (b :: w) [⟨.number, lexeme, .number (readNumeral lexeme), .unknown⟩] := by
  refine writes_piece (isBlankByte_eq_false hb (by decide)) (fun u _ h => ne_of_class hb (by decide) h.1) ?_
  intro u hu p
  obtain ⟨hlexeme, hrest⟩ := h u hu
  refine ⟨p.after lexeme, ⟨.number, lexeme, .number (readNumeral lexeme), p⟩, ?_, rfl⟩
  rw [nextPiece, if_neg (by rw [isLetter_of_isDigit hb]; decide), if_pos hb]
  simp only [numeralPiece, hlexeme, hrest]
  rfl

theorem loose_whole (hb : Bytes.isDigit b = true) (hw : ∀ x ∈ w, Bytes.isDigit x = true) :
    Loose (b :: w) [⟨.number, b :: w, .number (readNumeral (b :: w)), .unknown⟩] := by
  refine loose_numeral hb fun u hu => ?_
  obtain ⟨htake, hdrop⟩ := takeWhile_append_apart (u := u) hw (by rintro b u' rfl; exact isDigit_head hu)
  rw [htake, hdrop, fraction_apart hu]
  exact ⟨List.append_nil _, rfl⟩

theorem loose_decimal {d : UInt8} {v : Bytes} (hb : Bytes.isDigit b = true) (hw : ∀ x ∈ w, Bytes.isDigit x = true)
    (hd : Bytes.isDigit d = true) (hv : ∀ x ∈ v, Bytes.isDigit x = true) :
    Loose (b :: (w ++ Bytes.point :: d :: v)) [⟨.number, b :: (w ++ Bytes.point :: d :: v),
      .number (readNumeral (b :: (w ++ Bytes.point :: d :: v))), .unknown⟩] := by
  refine loose_numeral hb fun u hu => ?_
  obtain ⟨htake, hdrop⟩ := takeWhile_append_apart (u := Bytes.point :: d :: (v ++ u)) hw (by rintro b u' ⟨⟩; decide)
  obtain ⟨htake', hdrop'⟩ := takeWhile_append_apart (u := u) hv (by rintro b u' rfl; exact isDigit_head hu)
  simp only [List.append_assoc, List.cons_append]
  rw [htake, hdrop, fraction, if_pos ⟨rfl, hd⟩, htake', hdrop']
  exact ⟨rfl, rfl⟩

/-- a string in its canonical form -/
theorem stringBody_literal (s u : Bytes) (p : Pos) : ∃ q, stringBody p (s.flatMap Text.literalByte ++ Bytes.quote :: u) =
    ⟨s, s.flatMap Text.literalByte ++ [Bytes.quote], [], .closed, q, u⟩ := by
  induction s generalizing p with
  | nil => exact ⟨p.next Bytes.quote, stringBody_quote p u⟩
  | cons b s ih =>
    rw [List.flatMap_cons, List.append_assoc]
    have hescape : ∀ e, unescape? e = some b → Text.literalByte b = [Bytes.backslash, e] →
        ∃ q, stringBody p (Text.literalByte b ++ (s.flatMap Text.literalByte ++ Bytes.quote :: u)) =
          ⟨b :: s, Text.literalByte b ++ s.flatMap Text.literalByte ++ [Bytes.quote], [], .closed, q, u⟩ := by
      intro e he hb
      obtain ⟨q, hq⟩ := ih ((p.next Bytes.backslash).next e)
      refine ⟨q, ?_⟩
      rw [hb, List.cons_append, List.cons_append, List.nil_append, stringBody_escape _ _ he, hq]
      rfl
    by_cases hs : b = Bytes.backslash
    · exact hescape Bytes.backslash (by rw [hs]; rfl) (by rw [hs]; rfl)
    by_cases hq : b = Bytes.quote
    · exact hescape Bytes.quote (by rw [hq]; rfl) (by rw [hq]; rfl)
    by_cases hn : b = Bytes.newline
    · exact hescape 110 (by rw [hn]; rfl) (by rw [hn]; rfl)
    by_cases ht : b = 9
    · exact hescape 116 (by rw [ht]; rfl) (by rw [ht]; rfl)
    · have hb : Text.literalByte b = [b] := by simp [Text.literalByte, hs, hq, hn, ht]
      obtain ⟨q, hbody⟩ := ih (p.next b)
      refine ⟨q, ?_⟩
      rw [hb, List.cons_append, List.nil_append, stringBody_byte _ _ hq hn hs, hbody]
      rfl

theorem closed_string (s : Bytes) :
    Closed (Text.literal s) [⟨.stringLiteral, Text.literal s, .text s, .unknown⟩] := by
  refine writes_piece (by decide) (fun u _ h => absurd h.1 (by decide)) ?_
  intro u _ p
  obtain ⟨q, hbody⟩ := stringBody_literal s u (p.next Bytes.quote)
  refine ⟨q, ⟨.stringLiteral, Text.literal s, .text s, p⟩, ?_, rfl⟩
  rw [nextPiece, if_neg (by decide), if_neg (by decide), if_pos rfl]
  simp only [stringPiece, List.append_assoc, List.singleton_append, hbody]
  rfl

/-- a sign of one byte, unless the next byte makes another sign or a comment of it -/
theorem writes_sign {F : Bytes → Prop} {k : TokenKind} (hk : TokenKind.ofSign? b = some k)
    (hclass : Bytes.isLetter b = false ∧ Bytes.isDigit b = false ∧ b ≠ Bytes.quote ∧ isBlankByte b = false)
    (hF : ∀ u, F u → longSign? b u = none ∧ ¬(b = Bytes.slash ∧ u.head? = some Bytes.slash)) :
    Writes F [b] [⟨k, [b], .none, .unknown⟩] := by
  obtain ⟨hletter, hdigit, hquote, hblank⟩ := hclass
  have hne : k ≠ .stringLiteral := by
    rintro rfl
    exact absurd (spelling_of_ofSign hk) (by simp [TokenKind.spelling?])
  refine writes_piece hblank (fun u hu => (hF u hu).2) ?_
  intro u hu p
  refine ⟨p.after [b], ⟨k, [b], .none, p⟩, ?_, by simp [plain, hne]⟩
  rw [List.nil_append, nextPiece, if_neg (by simp [hletter]), if_neg (by simp [hdigit]), if_neg hquote, signPiece,
    (hF u hu).1]
  dsimp only
  rw [hk]
  rfl

end Bytes

/-- the signs that no byte can continue -/
def isSign : TokenKind → Bool
  | .colon | .equals | .leftParen | .rightParen | .leftBrace | .rightBrace | .semicolon | .comma | .arrow | .dots
  | .plus | .star | .greater => true
  | _ => false

theorem closed_long {b c : UInt8} {k : TokenKind} (h : ∀ u, longSign? b (c :: u) = some k)
    (hclass : Bytes.isLetter b = false ∧ Bytes.isDigit b = false ∧ b ≠ Bytes.quote ∧ isBlankByte b = false ∧
      b ≠ Bytes.slash) (hne : k ≠ .stringLiteral) : Closed [b, c] [⟨k, [b, c], .none, .unknown⟩] := by
  obtain ⟨hletter, hdigit, hquote, hblank, hslash⟩ := hclass
  refine writes_piece hblank (fun u _ h => hslash h.1) ?_
  intro u _ p
  refine ⟨p.after [b, c], ⟨k, [b, c], .none, p⟩, ?_, by simp [plain, hne]⟩
  rw [nextPiece, if_neg (by simp [hletter]), if_neg (by simp [hdigit]), if_neg hquote, signPiece, List.singleton_append,
    h u]
  rfl

theorem closed_sign {k : TokenKind} (h : isSign k = true) : Closed k.token.lexeme [k.token] := by
  have hshort : ∀ b : UInt8, b ≠ Bytes.minus → b ≠ Bytes.point → b ≠ Bytes.slash → ∀ u : Bytes, True →
      longSign? b u = none ∧ ¬(b = Bytes.slash ∧ u.head? = some Bytes.slash) := by
    intro b hm hp hs u _
    exact ⟨by simp [longSign?, hm, hp], fun h => hs h.1⟩
  cases k <;> first
    | exact absurd h Bool.false_ne_true
    | exact writes_sign rfl (by decide) (hshort _ (by decide) (by decide) (by decide))
    | exact closed_long (fun u => rfl) (by decide) (by decide)

/-- what does not continue a sign: it makes neither an arrow nor a comment of it -/
theorem apart_sign {b : UInt8} {u : Bytes} (h : apart u = true) (hp : b ≠ Bytes.point) :
    longSign? b u = none ∧ ¬(b = Bytes.slash ∧ u.head? = some Bytes.slash) := by
  cases u with
  | nil => simp [longSign?]
  | cons c u =>
    simp only [apart, Bool.and_eq_true, bne_iff_ne] at h
    refine ⟨?_, fun hs => h.1.2 (Option.some.inj hs.2)⟩
    simp [longSign?, h.1.1.2, hp]

/-- the text of a word or sign -/
theorem loose_fixed {k : TokenKind} {w : Bytes} (h : k.spelling? = some w) : Loose k.token.lexeme [k.token] := by
  cases k <;> first
    | exact (closed_sign rfl).loose
    | exact loose_word rfl (List.all_eq_true.1 rfl) rfl rfl
    | exact writes_sign rfl (by decide) fun u hu => apart_sign hu (by decide)
    | cases h

/-- **Writing a token.** The canonical text of a spelled token is read as the token. -/
theorem loose_of_isSpelled {t : Token} (h : t.IsSpelled) : Loose t.plain.lexeme [t.plain] := by
  obtain ⟨k, lexeme, literal, pos⟩ := t
  simp only [IsSpelled] at h
  cases h with
  | fixed h =>
    have hplain := plain_of_fixed (t := ⟨k, lexeme, .none, pos⟩) (.fixed h) h
    rw [hplain]
    exact loose_fixed h
  | name hb hw hk => exact loose_word hb hw hk rfl
  | whole hb hw => exact loose_whole hb hw
  | decimal hb hw hd hv => exact loose_decimal hb hw hd hv
  | string => exact (closed_string _).loose

/-! ## Many tokens -/

/-- spelled tokens as text, each on a line of its own -/
def written (ts : List Token) : Bytes := ts.flatMap fun t => t.plain.lexeme ++ [Bytes.newline]

theorem closed_written {ts : List Token} (h : ∀ t ∈ ts, t.IsSpelled) : Closed (written ts) (ts.map plain) := by
  induction ts with
  | nil => exact .nil
  | cons t ts ih =>
    obtain ⟨ht, hts⟩ := List.forall_mem_cons.1 h
    have hline : Closed (t.plain.lexeme ++ [Bytes.newline]) [t.plain] := by
      have := (loose_of_isSpelled ht).append (closed_blank (b := Bytes.newline) (by decide)) fun u _ => rfl
      rwa [List.append_nil] at this
    exact hline.append (ih hts)

/-- a text that is read as tokens, at the end of the text -/
theorem scanFrom_of_writes {F : Bytes → Prop} {w : Bytes} {ts : List Token} (h : Writes F w ts) (hF : F []) (p : Pos) :
    (scanFrom p w).errors = [] ∧
      ∃ us q, (scanFrom p w).tokens = us ++ [.finish q] ∧ us.map plain = ts := by
  obtain ⟨q, us, hscan, hus⟩ := h [] hF p
  have hend : scanFrom q [] = ⟨[.finish q], []⟩ := scanFrom_end rfl
  rw [List.append_nil, hend] at hscan
  rw [hscan]
  exact ⟨rfl, us, q, rfl, hus⟩

end Token

end Ouroboros
