/-
Reading by longest match.

The token grammar is said here without the reader: `Part.Reads` lists the classes of text (blanks, comments, words,
numerals, strings, signs) and what a text of each class stands for, `Longest` says that no text of any class at the start
of what is left is longer, and `Splits` cuts a whole text into such parts from left to right.

- `nextPiece_of_longest`: a longest token is read as the next piece, without faults.
- `exists_longest`: what is read without faults is a longest token.
- `Reads.functional`: the text of a part fixes its class, its kind and its payload.
- `scanFrom_of_splits`, `splits_of_errors_nil`: the two directions for whole texts.
- `scan_exact`: reading reports no fault exactly for the texts that split, and gives the parts that are tokens.
-/
import Ouroboros.Proofs.Scanning.Lines
import Ouroboros.Proofs.Scanning.Writing

namespace Ouroboros

namespace Token

/-! ## The token grammar -/

/-- the bytes that separate tokens: space, tab, carriage return, line feed -/
def blanks : List UInt8 := [Bytes.space, 9, Bytes.carriageReturn, Bytes.newline]

/-- the signs with their kinds -/
def signs : List (Bytes × TokenKind) :=
  [(Ouroboros.text "->", .arrow), (Ouroboros.text "..", .dots), (Ouroboros.text ":", .colon),
   (Ouroboros.text "=", .equals), (Ouroboros.text "(", .leftParen), (Ouroboros.text ")", .rightParen),
   (Ouroboros.text "\x7b", .leftBrace), (Ouroboros.text "\x7d", .rightBrace), (Ouroboros.text ";", .semicolon),
   (Ouroboros.text ",", .comma), (Ouroboros.text "+", .plus), (Ouroboros.text "-", .minus),
   (Ouroboros.text "*", .star), (Ouroboros.text "/", .slash), (Ouroboros.text ">", .greater)]

/-- the bytes that may follow a backslash in a string, with what they stand for -/
def escapes : List (UInt8 × UInt8) :=
  [(110, Bytes.newline), (116, 9), (Bytes.backslash, Bytes.backslash), (Bytes.quote, Bytes.quote)]

/-- a text between quotes and the payload it stands for -/
inductive Escaped : Bytes → Bytes → Prop where
  | nil : Escaped [] []
  | byte {b : UInt8} {w s : Bytes} (hb : b ∉ [Bytes.quote, Bytes.newline, Bytes.backslash]) (h : Escaped w s) :
    Escaped (b :: w) (b :: s)
  | escape {e c : UInt8} {w s : Bytes} (he : (e, c) ∈ escapes) (h : Escaped w s) :
    Escaped (Bytes.backslash :: e :: w) (c :: s)

/-- a part of a text: a separator, or a token with its payload -/
inductive Part where
  | blank
  | comment
  | token (kind : TokenKind) (literal : Literal)

/-- the texts of each class of parts -/
inductive Part.Reads : Part → Bytes → Prop where
  | blank {b : UInt8} (hb : b ∈ blanks) : Reads .blank [b]
  | comment {w : Bytes} (hw : Bytes.newline ∉ w) : Reads .comment (Bytes.slash :: Bytes.slash :: w)
  | word {b : UInt8} {w : Bytes} (hb : Bytes.isLetter b = true) (hw : ∀ x ∈ w, Bytes.isNameByte x = true) :
    Reads (.token (TokenKind.ofWord (b :: w))
      (if TokenKind.ofWord (b :: w) = .identifier then .text (b :: w) else .none)) (b :: w)
  | whole {b : UInt8} {w : Bytes} (hb : Bytes.isDigit b = true) (hw : ∀ x ∈ w, Bytes.isDigit x = true) :
    Reads (.token .number (.number (readNumeral (b :: w)))) (b :: w)
  | decimal {b d : UInt8} {w v : Bytes} (hb : Bytes.isDigit b = true) (hw : ∀ x ∈ w, Bytes.isDigit x = true)
    (hd : Bytes.isDigit d = true) (hv : ∀ x ∈ v, Bytes.isDigit x = true) :
    Reads (.token .number (.number (readNumeral (b :: (w ++ Bytes.point :: d :: v)))))
      (b :: (w ++ Bytes.point :: d :: v))
  | string {w s : Bytes} (h : Escaped w s) :
    Reads (.token .stringLiteral (.text s)) (Bytes.quote :: (w ++ [Bytes.quote]))
  | sign {w : Bytes} {k : TokenKind} (h : (w, k) ∈ signs) : Reads (.token k .none) w

/-- `w` stands at the start of `t` as such a part, and no longer text there is a part of any class -/
structure Longest (part : Part) (w t : Bytes) : Prop where
  reads : part.Reads w
  starts : w <+: t
  longest : ∀ other v, Part.Reads other v → v <+: t → v.length ≤ w.length

/-- a text cut from left to right into parts, each the longest where it starts -/
inductive Splits : Bytes → List (Part × Bytes) → Prop where
  | nil : Splits [] []
  | cons {part : Part} {w rest : Bytes} {parts : List (Part × Bytes)} (h : Longest part w (w ++ rest))
    (hrest : Splits rest parts) : Splits (w ++ rest) ((part, w) :: parts)

/-- the token of a part with its text and place; a separator is none -/
def Part.token? (w : Bytes) (p : Pos) : Part → Option Token
  | .token kind literal => some ⟨kind, w, literal, p⟩
  | .blank | .comment => none

/-- the tokens among the parts of a text that starts at a place, and the end of input behind them -/
def tokensOf : Pos → List (Part × Bytes) → List Token
  | p, [] => [.finish p]
  | p, (part, w) :: parts => (part.token? w p).toList ++ tokensOf (p.after w) parts

/-! ## Tables and classes of bytes -/

theorem mem_blanks {b : UInt8} : b ∈ blanks ↔ isBlankByte b = true := by
  simp [blanks, isBlankByte, or_assoc]

theorem mem_escapes {e c : UInt8} : (e, c) ∈ escapes ↔ unescape? e = some c := by
  constructor
  · have htable : escapes.all (fun x => unescape? x.1 = some x.2) = true := by decide
    exact fun h => of_decide_eq_true (List.all_eq_true.1 htable (e, c) h)
  · intro h
    unfold unescape? at h
    iterate 4
      rcases cases_of_ite_eq_some h with ⟨rfl, rfl⟩ | h
      · decide
    cases h

theorem mem_signs_of_ofSign {b : UInt8} {k : TokenKind} (h : TokenKind.ofSign? b = some k) : ([b], k) ∈ signs := by
  unfold TokenKind.ofSign? at h
  iterate 13
    rcases cases_of_ite_eq_some h with ⟨rfl, rfl⟩ | h
    · decide
  cases h

/-- the first byte of a sign is of no other class -/
theorem sign_lead {b : UInt8} {w : Bytes} {k : TokenKind} (h : (b :: w, k) ∈ signs) :
    Bytes.isLetter b = false ∧ Bytes.isDigit b = false ∧ b ≠ Bytes.quote ∧ isBlankByte b = false := by
  have htable : ∀ e ∈ signs, ∀ c ∈ e.1.head?,
      Bytes.isLetter c = false ∧ Bytes.isDigit c = false ∧ c ≠ Bytes.quote ∧ isBlankByte c = false := by decide +kernel
  exact htable _ h b rfl

/-- a sign is one byte, an arrow or a range -/
theorem sign_shape {b : UInt8} {w : Bytes} {k : TokenKind} (h : (b :: w, k) ∈ signs) :
    (w = [] ∧ TokenKind.ofSign? b = some k) ∨ (b = Bytes.minus ∧ w = [62] ∧ k = .arrow) ∨
      (b = Bytes.point ∧ w = [Bytes.point] ∧ k = .dots) := by
  have htable : ∀ e ∈ signs, ∀ c ∈ e.1.head?, (e.1.tail = [] ∧ TokenKind.ofSign? c = some e.2) ∨
      (c = Bytes.minus ∧ e.1.tail = [62] ∧ e.2 = .arrow) ∨
      (c = Bytes.point ∧ e.1.tail = [Bytes.point] ∧ e.2 = .dots) := by decide +kernel
  exact htable _ h b rfl

theorem isLetter_lt {b : UInt8} (h : Bytes.isLetter b = true) : b < 128 := by
  simp only [Bytes.isLetter, Bool.and_eq_true, Bool.or_eq_true, decide_eq_true_eq, beq_iff_eq] at h
  rcases h with (h | h) | rfl
  · exact UInt8.lt_of_le_of_lt h.2 (by decide)
  · exact UInt8.lt_of_le_of_lt h.2 (by decide)
  · decide

theorem isDigit_lt {b : UInt8} (h : Bytes.isDigit b = true) : b < 128 := by
  simp only [Bytes.isDigit, Bool.and_eq_true, decide_eq_true_eq] at h
  exact UInt8.lt_of_le_of_lt h.2 (by decide)

/-! ## The first byte of a part says its class -/

section Lead

variable {part : Part} {b : UInt8} {w : Bytes}

theorem Part.Reads.of_blank (hb : isBlankByte b = true) (h : part.Reads (b :: w)) : part = .blank ∧ w = [] := by
  cases h with
  | blank => exact ⟨rfl, rfl⟩
  | comment | string => exact absurd hb (by decide)
  | word hl => rw [isBlankByte_eq_false hl (by decide)] at hb; cases hb
  | whole hd | decimal hd => rw [isBlankByte_eq_false hd (by decide)] at hb; cases hb
  | sign hs => rw [(sign_lead hs).2.2.2] at hb; cases hb

theorem Part.Reads.of_letter (hb : Bytes.isLetter b = true) (h : part.Reads (b :: w)) :
    ∀ x ∈ w, Bytes.isNameByte x = true := by
  cases h with
  | blank => simp
  | comment | string => exact absurd hb (by decide)
  | word _ hw => exact hw
  | whole hd | decimal hd => rw [isLetter_of_isDigit hd] at hb; cases hb
  | sign hs => rw [(sign_lead hs).1] at hb; cases hb

/-- a part that starts with a digit is a numeral: its digits, and a fraction or none -/
theorem Part.Reads.of_digit (hb : Bytes.isDigit b = true) (h : part.Reads (b :: w)) :
    ∃ u v, w = u ++ v ∧ (∀ x ∈ u, Bytes.isDigit x = true) ∧
      (v = [] ∨ ∃ d v', v = Bytes.point :: d :: v' ∧ Bytes.isDigit d = true ∧ ∀ x ∈ v', Bytes.isDigit x = true) := by
  cases h with
  | blank => exact ⟨[], [], rfl, by simp, Or.inl rfl⟩
  | comment | string => exact absurd hb (by decide)
  | word hl => rw [isLetter_of_isDigit hb] at hl; cases hl
  | whole _ hw => exact ⟨w, [], (List.append_nil w).symm, hw, Or.inl rfl⟩
  | decimal _ hw hd hv => exact ⟨_, _, rfl, hw, Or.inr ⟨_, _, rfl, hd, hv⟩⟩
  | sign hs => rw [(sign_lead hs).2.1] at hb; cases hb

theorem Part.Reads.of_quote (h : part.Reads (Bytes.quote :: w)) : ∃ v s, w = v ++ [Bytes.quote] ∧ Escaped v s := by
  cases h with
  | blank hb => exact absurd hb (by decide)
  | word hl => exact absurd hl (by decide)
  | whole hd | decimal hd => exact absurd hd (by decide)
  | string h => exact ⟨_, _, rfl, h⟩
  | sign hs => exact absurd rfl (sign_lead hs).2.2.1

/-- a part that starts with a byte of no other class is a comment or a sign -/
theorem Part.Reads.of_other (hl : Bytes.isLetter b = false) (hd : Bytes.isDigit b = false) (hq : b ≠ Bytes.quote)
    (hb : isBlankByte b = false) (h : part.Reads (b :: w)) :
    (b = Bytes.slash ∧ ∃ v, w = Bytes.slash :: v) ∨ ∃ k, (b :: w, k) ∈ signs := by
  cases h with
  | blank hb' => rw [mem_blanks.1 hb'] at hb; cases hb
  | comment => exact Or.inl ⟨rfl, _, rfl⟩
  | word hl' => rw [hl'] at hl; cases hl
  | whole hd' | decimal hd' => rw [hd'] at hd; cases hd
  | string => exact absurd rfl hq
  | sign hs => exact Or.inr ⟨_, hs⟩

theorem Part.Reads.of_comment (h : Part.Reads .comment w) :
    ∃ v, w = Bytes.slash :: Bytes.slash :: v ∧ Bytes.newline ∉ v := by
  cases h with
  | comment hw => exact ⟨_, rfl, hw⟩

/-- a token starts with no blank -/
theorem Part.Reads.token_lead {kind : TokenKind} {literal : Literal} (h : Part.Reads (.token kind literal) (b :: w)) :
    isBlankByte b = false := by
  cases h with
  | word hl => exact isBlankByte_eq_false hl (by decide)
  | whole hd | decimal hd => exact isBlankByte_eq_false hd (by decide)
  | string => decide
  | sign hs => exact (sign_lead hs).2.2.2

/-- the only token that starts with a slash is the slash -/
theorem Part.Reads.token_slash {kind : TokenKind} {literal : Literal}
    (h : Part.Reads (.token kind literal) (Bytes.slash :: w)) : w = [] := by
  cases h with
  | word hb | whole hb | decimal hb => exact absurd hb (by decide)
  | sign hs =>
    rcases sign_shape hs with ⟨hw, -⟩ | ⟨hb, -⟩ | ⟨hb, -⟩
    · exact hw
    · exact absurd hb (by decide)
    · exact absurd hb (by decide)

theorem Part.Reads.ne_nil (h : part.Reads w) : w ≠ [] := by
  cases h with
  | sign hs =>
    have htable : ∀ e ∈ signs, e.1 ≠ [] := by decide
    exact htable _ hs
  | blank | comment | word | whole | decimal | string => simp

end Lead

/-! ## What is longest -/

/-- a part is the longest in its own text -/
theorem Part.Reads.longest {part : Part} {w : Bytes} (h : part.Reads w) : Longest part w w :=
  ⟨h, List.prefix_rfl, fun _ _ _ hv => hv.length_le⟩

/-- a longer text of a class cannot start with the longest part -/
theorem Longest.not_reads {part other : Part} {w u v : Bytes} (h : Longest part w (w ++ (v ++ u))) (hv : v ≠ [])
    (hother : other.Reads (w ++ v)) : False := by
  have hle := h.longest other (w ++ v) hother ⟨u, List.append_assoc w v u⟩
  rw [List.length_append] at hle
  have hpos := List.length_pos_iff.2 hv
  omega

theorem length_le_takeWhile {f : UInt8 → Bool} {v t : Bytes} (hv : v <+: t) (hf : ∀ x ∈ v, f x = true) :
    v.length ≤ (t.takeWhile f).length := by
  obtain ⟨u, rfl⟩ := hv
  rw [List.takeWhile_append_of_pos hf, List.length_append]
  omega

/-- what follows the longest part does not start with a byte that would continue it -/
theorem Longest.head_eq_false {part : Part} {f : UInt8 → Bool} {w u : Bytes} (h : Longest part w (w ++ u))
    (hmore : ∀ c, f c = true → ∃ other : Part, other.Reads (w ++ [c])) (c : UInt8) (u' : Bytes) (hu : u = c :: u') :
    f c = false := by
  subst hu
  rw [Bool.eq_false_iff]
  intro hc
  obtain ⟨other, hother⟩ := hmore c hc
  exact h.not_reads (v := [c]) (by simp) hother

/-! ## The longest token is the next piece -/

section Pieces

variable {kind : TokenKind} {literal : Literal} {b : UInt8} {w u : Bytes} (p : Pos)

/-- what stands between quotes is read up to the closing one -/
theorem stringBody_of_escaped {s : Bytes} (h : Escaped w s) (u : Bytes) (p : Pos) :
    stringBody p (w ++ Bytes.quote :: u) =
      ⟨s, w ++ [Bytes.quote], [], .closed, p.after (w ++ [Bytes.quote]), u⟩ := by
  induction h generalizing p with
  | nil => exact stringBody_quote p u
  | byte hb _ ih =>
    simp only [List.mem_cons, List.not_mem_nil, or_false, not_or] at hb
    rw [List.cons_append, stringBody_byte _ _ hb.1 hb.2.1 hb.2.2, ih]
    rfl
  | escape he _ ih =>
    rw [List.cons_append, List.cons_append, stringBody_escape _ _ (mem_escapes.1 he), ih]
    rfl

theorem nextPiece_word (hb : Bytes.isLetter b = true) (hw : ∀ x ∈ w, Bytes.isNameByte x = true)
    (h : ∀ c u', u = c :: u' → Bytes.isNameByte c = false) :
    nextPiece p b (w ++ u) = piece (TokenKind.ofWord (b :: w)) (b :: w)
      (if TokenKind.ofWord (b :: w) = .identifier then .text (b :: w) else .none) p u := by
  obtain ⟨htake, hdrop⟩ := takeWhile_append_apart hw h
  rw [nextPiece, if_pos hb, wordPiece, htake, hdrop]

theorem nextPiece_numeral (hb : Bytes.isDigit b = true) (hw : ∀ x ∈ w, Bytes.isDigit x = true) {v : Bytes}
    (h : ∀ c u', v ++ u = c :: u' → Bytes.isDigit c = false) (hv : fraction (v ++ u) = (v, u)) :
    nextPiece p b (w ++ v ++ u) =
      piece .number (b :: (w ++ v)) (.number (readNumeral (b :: (w ++ v)))) p u := by
  obtain ⟨htake, hdrop⟩ := takeWhile_append_apart (u := v ++ u) hw h
  rw [nextPiece, if_neg (by rw [isLetter_of_isDigit hb]; decide), if_pos hb]
  simp only [numeralPiece, List.append_assoc, htake, hdrop, hv, List.cons_append]

theorem nextPiece_string {s : Bytes} (h : Escaped w s) :
    nextPiece p Bytes.quote (w ++ [Bytes.quote] ++ u) = ⟨some ⟨.stringLiteral, Bytes.quote :: (w ++ [Bytes.quote]),
      .text s, p⟩, [], p.after (Bytes.quote :: (w ++ [Bytes.quote])), u⟩ := by
  have hbody := stringBody_of_escaped h u (p.next Bytes.quote)
  rw [nextPiece, if_neg (by decide), if_neg (by decide), if_pos rfl]
  simp only [stringPiece, List.append_assoc, List.singleton_append, hbody]
  rfl

theorem nextPiece_sign (h : (b :: w, kind) ∈ signs) (hu : w = [] → longSign? b u = none) :
    nextPiece p b (w ++ u) = piece kind (b :: w) .none p u := by
  obtain ⟨hletter, hdigit, hquote, -⟩ := sign_lead h
  rw [nextPiece, if_neg (by simp [hletter]), if_neg (by simp [hdigit]), if_neg hquote, signPiece]
  rcases sign_shape h with ⟨rfl, hk⟩ | ⟨rfl, rfl, rfl⟩ | ⟨rfl, rfl, rfl⟩
  · rw [List.nil_append, hu rfl]
    dsimp only
    rw [hk]
  · rfl
  · rfl

/-- a numeral without a fraction is followed by none -/
theorem fraction_eq_nil (h : ∀ d u', u = Bytes.point :: d :: u' → Bytes.isDigit d = false) : fraction u = ([], u) := by
  match u with
  | [] | [_] => rfl
  | dot :: d :: u' =>
    rw [fraction, if_neg]
    rintro ⟨rfl, hd⟩
    rw [h d u' rfl] at hd
    cases hd

/-- the fraction of a numeral ends where no digit follows -/
theorem fraction_append {d : UInt8} {v : Bytes} (hd : Bytes.isDigit d = true) (hv : ∀ x ∈ v, Bytes.isDigit x = true)
    (h : ∀ c u', u = c :: u' → Bytes.isDigit c = false) :
    fraction (Bytes.point :: d :: v ++ u) = (Bytes.point :: d :: v, u) := by
  obtain ⟨htake, hdrop⟩ := takeWhile_append_apart hv h
  rw [List.cons_append, List.cons_append, fraction, if_pos ⟨rfl, hd⟩, htake, hdrop]

/-- **The longest token is read.** A token that is the longest part of what is left is the next piece. -/
theorem nextPiece_of_longest (h : Longest (.token kind literal) (b :: w) (b :: w ++ u)) :
    nextPiece p b (w ++ u) = ⟨some ⟨kind, b :: w, literal, p⟩, [], p.after (b :: w), u⟩ := by
  cases h.reads with
  | word hb hw =>
    refine nextPiece_word p hb hw (h.head_eq_false fun c hc => ⟨_, .word (w := w ++ [c]) hb ?_⟩)
    simp only [List.forall_mem_append, List.forall_mem_singleton]
    exact ⟨hw, hc⟩
  | whole hb hw =>
    have hdigit : ∀ c u', u = c :: u' → Bytes.isDigit c = false := by
      refine h.head_eq_false fun c hc => ⟨_, .whole (w := w ++ [c]) hb ?_⟩
      simp only [List.forall_mem_append, List.forall_mem_singleton]
      exact ⟨hw, hc⟩
    have hfraction : ∀ d u', u = Bytes.point :: d :: u' → Bytes.isDigit d = false := by
      rintro d u' rfl
      rw [Bool.eq_false_iff]
      intro hd
      refine h.not_reads (v := [Bytes.point, d]) (by simp) (.decimal hb hw hd ?_)
      simp
    have hpiece := nextPiece_numeral p hb hw (v := []) hdigit (fraction_eq_nil hfraction)
    rw [List.append_nil] at hpiece
    exact hpiece
  | @decimal _ d w v hb hw hd hv =>
    refine nextPiece_numeral p hb hw (by rintro c u' ⟨⟩; decide) (fraction_append hd hv ?_)
    refine h.head_eq_false fun c hc => ?_
    have hreads := Part.Reads.decimal hb hw hd (v := v ++ [c]) (by
      simp only [List.forall_mem_append, List.forall_mem_singleton]
      exact ⟨hv, hc⟩)
    rw [show w ++ Bytes.point :: d :: (v ++ [c]) = w ++ Bytes.point :: d :: v ++ [c] by simp] at hreads
    exact ⟨_, hreads⟩
  | string hs => exact nextPiece_string p hs
  | sign hs =>
    refine nextPiece_sign p hs ?_
    rintro rfl
    unfold longSign?
    rw [if_neg, if_neg]
    · rintro ⟨rfl, hu⟩
      obtain ⟨u', rfl⟩ := List.head?_eq_some_iff.1 hu
      exact h.not_reads (v := [Bytes.point]) (by simp) (.sign (k := .dots) (by decide))
    · rintro ⟨rfl, hu⟩
      obtain ⟨u', rfl⟩ := List.head?_eq_some_iff.1 hu
      exact h.not_reads (v := [62]) (by simp) (.sign (k := .arrow) (by decide))

end Pieces

/-! ## What is read without faults is the longest token -/

section Faultless

variable {part : Part} {b : UInt8} {rest : Bytes} (p : Pos)

theorem longest_cons {w : Bytes} (h : part.Reads (b :: w)) (hw : w <+: rest)
    (hmost : ∀ other v, Part.Reads other (b :: v) → v <+: rest → v.length ≤ w.length) :
    Longest part (b :: w) (b :: rest) := by
  refine ⟨h, List.cons_prefix_cons.2 ⟨rfl, hw⟩, ?_⟩
  intro other v hother hv
  rcases List.prefix_cons_iff.1 hv with rfl | ⟨v', rfl, hv'⟩
  · exact Nat.zero_le _
  · exact Nat.succ_le_succ (hmost other v' hother hv')

theorem longest_word (rest : Bytes) (hb : Bytes.isLetter b = true) :
    ∃ kind literal, Longest (.token kind literal) (b :: rest.takeWhile Bytes.isNameByte) (b :: rest) := by
  refine ⟨_, _, longest_cons (.word hb fun x hx => List.mem_takeWhile_imp hx) (List.takeWhile_prefix _) ?_⟩
  intro other v hother hv
  exact length_le_takeWhile hv (hother.of_letter hb)

/-- a fraction is there, or it is not -/
theorem fraction_cases (t : Bytes) : fraction t = ([], t) ∨ ∃ d v u, t = Bytes.point :: d :: v ++ u ∧
    Bytes.isDigit d = true ∧ (∀ x ∈ v, Bytes.isDigit x = true) ∧ fraction t = (Bytes.point :: d :: v, u) := by
  unfold fraction
  split
  · rename_i dot d t
    split
    · rename_i h
      obtain ⟨rfl, hd⟩ := h
      refine Or.inr ⟨d, t.takeWhile Bytes.isDigit, t.dropWhile Bytes.isDigit, ?_, hd, ?_, rfl⟩
      · simp [List.takeWhile_append_dropWhile]
      · exact fun x hx => List.mem_takeWhile_imp hx
    · exact Or.inl rfl
  · exact Or.inl rfl

theorem length_le_numeral {v : Bytes} (hb : Bytes.isDigit b = true) (h : part.Reads (b :: v)) (hv : v <+: rest) :
    v.length ≤ (rest.takeWhile Bytes.isDigit ++ (fraction (rest.dropWhile Bytes.isDigit)).1).length := by
  obtain ⟨w, v, rfl, hw, rfl | ⟨d, v, rfl, hd, hdigits⟩⟩ := h.of_digit hb
  · rw [List.append_nil] at hv ⊢
    have hle := length_le_takeWhile hv hw
    rw [List.length_append]
    omega
  · -- the digits in front of the point are all there are, so the fraction starts with the point
    obtain ⟨u, rfl⟩ := hv
    obtain ⟨htake, hdrop⟩ := takeWhile_append_apart (u := Bytes.point :: d :: (v ++ u)) hw (by rintro c u' ⟨⟩; decide)
    have hle := length_le_takeWhile (t := v ++ u) (List.prefix_append v u) hdigits
    rw [List.append_assoc, List.cons_append, List.cons_append, htake, hdrop, fraction, if_pos ⟨rfl, hd⟩]
    simp only [List.length_append, List.length_cons]
    omega

theorem longest_numeral (hb : Bytes.isDigit b = true) :
    ∃ literal w, Longest (.token .number literal) (b :: w) (b :: rest) := by
  have hwhole : ∀ x ∈ rest.takeWhile Bytes.isDigit, Bytes.isDigit x = true := fun x hx => List.mem_takeWhile_imp hx
  have hcut := List.takeWhile_append_dropWhile (p := Bytes.isDigit) (l := rest)
  refine ⟨.number (readNumeral (b :: (rest.takeWhile Bytes.isDigit ++ (fraction (rest.dropWhile Bytes.isDigit)).1))), _,
    longest_cons ?_ ?_ fun other v hother hv => length_le_numeral hb hother hv⟩
  · rcases fraction_cases (rest.dropWhile Bytes.isDigit) with h | ⟨d, v, u, -, hd, hv, h⟩
    · rw [h, List.append_nil]
      exact .whole hb hwhole
    · rw [h]
      exact .decimal hb hwhole hd hv
  · rcases fraction_cases (rest.dropWhile Bytes.isDigit) with h | ⟨d, v, u, heq, -, -, h⟩
    · rw [h, List.append_nil]
      exact List.takeWhile_prefix _
    · refine ⟨u, ?_⟩
      rw [h, List.append_assoc, ← heq, hcut]

/-- a string that is closed and has no wrong escape stands between quotes -/
theorem exists_escaped {t : Bytes} (h : (stringBody p t).ending = .closed) (hfaults : (stringBody p t).faults = []) :
    ∃ w s u, t = w ++ Bytes.quote :: u ∧ Escaped w s := by
  fun_induction stringBody p t with
  | case1 | case3 | case4 => cases h
  | case2 p rest => exact ⟨[], [], rest, rfl, .nil⟩
  | case5 p e rest c hc _ _ body ih =>
    obtain ⟨w, s, u, rfl, hw⟩ := ih h hfaults
    exact ⟨_, _, u, rfl, .escape (mem_escapes.2 hc) hw⟩
  | case6 p e rest hc _ _ body ih => cases hfaults
  | case7 p b rest hq hn hs body ih =>
    obtain ⟨w, s, u, rfl, hw⟩ := ih h hfaults
    exact ⟨b :: w, b :: s, u, rfl, .byte (by simp [hq, hn, hs]) hw⟩

/-- of two strings at the start of one text none is longer: they end at the same quote -/
theorem Escaped.eq_of_append {w v s s' u u' : Bytes} (hw : Escaped w s) (hv : Escaped v s')
    (h : w ++ Bytes.quote :: u = v ++ Bytes.quote :: u') : w = v := by
  have hraw := congrArg StringBody.raw (stringBody_of_escaped hw u .start)
  rw [h, stringBody_of_escaped hv u' .start] at hraw
  exact (List.append_cancel_right hraw).symm

theorem longest_string (h : (stringPiece p Bytes.quote rest).faults = []) :
    ∃ literal w, Longest (.token .stringLiteral literal) (Bytes.quote :: w) (Bytes.quote :: rest) := by
  have hbody := not_or.1 (mt stringPiece_faults_ne_nil.2 (not_not.2 h))
  obtain ⟨w, s, u, rfl, hw⟩ := exists_escaped _ (not_not.1 hbody.1) (not_not.1 hbody.2)
  refine ⟨.text s, w ++ [Bytes.quote], longest_cons (.string hw) ⟨u, by simp⟩ ?_⟩
  intro other v hother hv
  obtain ⟨v, s', rfl, hv'⟩ := hother.of_quote
  obtain ⟨u', hu'⟩ := hv
  rw [List.append_assoc, List.singleton_append] at hu'
  rw [hv'.eq_of_append hw hu']

theorem longest_sign (hl : Bytes.isLetter b = false) (hd : Bytes.isDigit b = false) (hq : b ≠ Bytes.quote)
    (hb : isBlankByte b = false) (hslash : ¬(b = Bytes.slash ∧ rest.head? = some Bytes.slash))
    (h : (signPiece p b rest).faults = []) : ∃ kind w, Longest (.token kind .none) (b :: w) (b :: rest) := by
  -- a match of another class would be a sign too: a comment does not start here
  have hother : ∀ other v, Part.Reads other (b :: v) → v <+: rest → ∃ k, (b :: v, k) ∈ signs := by
    intro other v hother hv
    rcases hother.of_other hl hd hq hb with ⟨hb', v', rfl⟩ | hsign
    · obtain ⟨u, rfl⟩ := hv
      exact absurd ⟨hb', rfl⟩ hslash
    · exact hsign
  unfold signPiece at h
  cases hlong : longSign? b rest with
  | some kind =>
    obtain ⟨c, u, rfl, hshape⟩ := longSign?_eq_some hlong
    have hsign : ([b, c], kind) ∈ signs := by
      rcases hshape with ⟨rfl, rfl, rfl⟩ | ⟨rfl, rfl, rfl⟩ <;> decide
    refine ⟨kind, [c], longest_cons (.sign hsign) ⟨u, rfl⟩ ?_⟩
    intro other v hreads hv
    obtain ⟨k, hk⟩ := hother other v hreads hv
    rcases sign_shape hk with ⟨rfl, -⟩ | ⟨-, rfl, -⟩ | ⟨-, rfl, -⟩ <;> simp
  | none =>
    rw [hlong] at h
    dsimp only at h
    cases hshort : TokenKind.ofSign? b with
    | none =>
      rw [hshort] at h
      cases h
    | some kind =>
      refine ⟨kind, [], longest_cons (.sign (mem_signs_of_ofSign hshort)) List.nil_prefix ?_⟩
      intro other v hreads hv
      obtain ⟨k, hk⟩ := hother other v hreads hv
      obtain ⟨u, rfl⟩ := hv
      rcases sign_shape hk with ⟨rfl, -⟩ | ⟨rfl, rfl, -⟩ | ⟨rfl, rfl, -⟩
      · simp
      · cases hlong
      · cases hlong

/-- **What is read is the longest token.** A piece without faults, where neither a blank nor a comment starts, is a
token that is the longest part of what is left. -/
theorem exists_longest (hb : isBlankByte b = false) (hslash : ¬(b = Bytes.slash ∧ rest.head? = some Bytes.slash))
    (h : (nextPiece p b rest).faults = []) :
    ∃ kind literal w, Longest (.token kind literal) (b :: w) (b :: rest) := by
  unfold nextPiece at h
  split at h
  · rename_i hl
    obtain ⟨kind, literal, hlongest⟩ := longest_word rest hl
    exact ⟨kind, literal, _, hlongest⟩
  · rename_i hl
    split at h
    · rename_i hd
      exact ⟨.number, longest_numeral hd⟩
    · rename_i hd
      split at h
      · rename_i hq
        subst hq
        exact ⟨.stringLiteral, longest_string p h⟩
      · rename_i hq
        obtain ⟨kind, w, hlongest⟩ :=
          longest_sign p (Bool.eq_false_iff.2 hl) (Bool.eq_false_iff.2 hd) hq hb hslash h
        exact ⟨kind, .none, w, hlongest⟩

end Faultless

/-! ## Blanks and comments -/

section Separators

variable {part : Part} {b : UInt8} {rest : Bytes} (p : Pos)

/-- a comment runs to the end of its line -/
theorem skipBlanks_comment (t : Bytes) :
    skipBlanks true p t = skipBlanks false (p.after (t.takeWhile (· != Bytes.newline)))
      (t.dropWhile (· != Bytes.newline)) := by
  induction t generalizing p with
  | nil => rfl
  | cons b t ih =>
    by_cases hb : b = Bytes.newline
    · subst hb
      rfl
    · have hb' : (b != Bytes.newline) = true := by simp [hb]
      rw [List.takeWhile_cons, List.dropWhile_cons, if_pos hb', if_pos hb', skipBlanks, hb', ih]
      rfl

theorem longest_blank (hb : isBlankByte b = true) : Longest .blank [b] (b :: rest) := by
  refine longest_cons (.blank (mem_blanks.2 hb)) List.nil_prefix ?_
  intro other v hother _
  obtain ⟨-, rfl⟩ := hother.of_blank hb
  exact Nat.le_refl _

theorem longest_comment (rest : Bytes) :
    Longest .comment (Bytes.slash :: Bytes.slash :: rest.takeWhile (· != Bytes.newline))
      (Bytes.slash :: Bytes.slash :: rest) := by
  refine longest_cons (.comment fun h => ?_) (List.cons_prefix_cons.2 ⟨rfl, List.takeWhile_prefix _⟩) ?_
  · have := List.mem_takeWhile_imp h
    simp at this
  · intro other v hother hv
    cases other with
    | blank =>
      obtain ⟨hb⟩ := hother
      exact absurd hb (by decide)
    | token kind literal =>
      rw [hother.token_slash]
      exact Nat.zero_le _
    | comment =>
      obtain ⟨w, heq, hw⟩ := hother.of_comment
      cases heq
      refine Nat.succ_le_succ (length_le_takeWhile (List.cons_prefix_cons.1 hv).2 ?_)
      intro x hx
      simp only [bne_iff_ne]
      rintro rfl
      exact hw hx

end Separators

/-! ## One part after the other -/

section Parts

variable {part other : Part} {w u t v : Bytes}

theorem Longest.eq_text (h : Longest part w t) (h' : Longest other v t) : w = v := by
  have hle := h'.longest part w h.reads h.starts
  have hge := h.longest other v h'.reads h'.starts
  exact (List.prefix_of_prefix_length_le h.starts h'.starts hle).eq_of_length (by omega)

/-- a token that is the longest part is neither skipped nor taken for a comment -/
theorem Longest.skipBlanks_token {kind : TokenKind} {literal : Literal} {b : UInt8}
    (h : Longest (.token kind literal) (b :: w) (b :: w ++ u)) (p : Pos) :
    skipBlanks false p (b :: (w ++ u)) = (p, b :: (w ++ u)) := by
  rw [skipBlanks, if_neg (by simp [h.reads.token_lead]), if_neg]
  rintro ⟨rfl, hhead⟩
  obtain ⟨rest, hrest⟩ := List.head?_eq_some_iff.1 hhead
  have hcomment := longest_comment rest
  rw [← hrest] at hcomment
  have heq := h.eq_text hcomment
  rw [h.reads.token_slash] at heq
  cases heq

/-- **One part.** The longest part is read first: a token as itself, a separator as nothing. -/
theorem scanFrom_longest (h : Longest part w (w ++ u)) (p : Pos) :
    scanFrom p (w ++ u) =
      ⟨(part.token? w p).toList ++ (scanFrom (p.after w) u).tokens, (scanFrom (p.after w) u).errors⟩ := by
  cases part with
  | blank =>
    obtain ⟨hb⟩ := h.reads
    refine (scanFrom_congr ?_).trans rfl
    rw [List.singleton_append, skipBlanks, if_pos (mem_blanks.1 hb)]
    rfl
  | comment =>
    obtain ⟨v, rfl, hw⟩ := h.reads.of_comment
    have heq := h.eq_text (longest_comment (v ++ u))
    simp only [List.cons.injEq, true_and] at heq
    have hcut := List.takeWhile_append_dropWhile (p := (· != Bytes.newline)) (l := v ++ u)
    rw [← heq, List.append_cancel_left_eq] at hcut
    refine (scanFrom_congr ?_).trans rfl
    have hopen : skipBlanks false p (Bytes.slash :: Bytes.slash :: (v ++ u)) =
        skipBlanks true ((p.next Bytes.slash).next Bytes.slash) (v ++ u) := rfl
    rw [List.cons_append, List.cons_append, hopen, skipBlanks_comment, ← heq, hcut]
    rfl
  | token kind literal =>
    obtain ⟨b, w, rfl⟩ := List.exists_cons_of_ne_nil h.reads.ne_nil
    have hpiece := nextPiece_of_longest p h
    rw [List.cons_append, scanFrom_next (h.skipBlanks_token p), hpiece]
    rfl

/-- **The text fixes the part.** A text is of one class, with one kind and one payload. -/
theorem Part.Reads.functional (h : part.Reads w) (h' : other.Reads w) : part = other := by
  have hscan : ∀ {x : Part}, x.Reads w →
      (scanFrom .start w).tokens = (x.token? w .start).toList ++ (scanFrom (Pos.start.after w) []).tokens := by
    intro x hx
    have hone := scanFrom_longest (u := []) (by rw [List.append_nil]; exact hx.longest) .start
    rw [List.append_nil] at hone
    rw [hone]
  have heq := List.append_cancel_right ((hscan h).symm.trans (hscan h'))
  -- two separators are told apart by their first byte
  have hslash : Part.Reads .blank w → ¬Part.Reads .comment w := by
    rintro ⟨hb⟩ hcomment
    obtain ⟨v, hv, -⟩ := hcomment.of_comment
    cases hv
  cases part with
  | token kind literal =>
    cases other with
    | token kind' literal' =>
      simp only [Part.token?, Option.toList_some, List.cons.injEq, Token.mk.injEq, and_true, true_and] at heq
      rw [heq.1, heq.2]
    | blank | comment => cases heq
  | blank =>
    cases other with
    | token => cases heq
    | comment => exact absurd h' (hslash h)
    | blank => rfl
  | comment =>
    cases other with
    | token => cases heq
    | blank => exact absurd h (hslash h')
    | comment => rfl

/-- only strings and comments hold bytes outside ASCII -/
theorem Part.Reads.lt_of_mem (h : part.Reads w) {b : UInt8} (hb : b ∈ w) :
    b < 128 ∨ part = .comment ∨ ∃ s, part = .token .stringLiteral (.text s) := by
  have hdigits : ∀ {v : Bytes}, (∀ x ∈ v, Bytes.isDigit x = true) → b ∈ v → b < 128 :=
    fun hv hmem => isDigit_lt (hv b hmem)
  cases h with
  | blank hblank =>
    have htable : ∀ x ∈ blanks, x < 128 := by decide +kernel
    exact Or.inl (htable b (by rw [List.mem_singleton.1 hb]; exact hblank))
  | comment => exact Or.inr (Or.inl rfl)
  | string => exact Or.inr (Or.inr ⟨_, rfl⟩)
  | word hc hw =>
    refine Or.inl ?_
    rcases List.mem_cons.1 hb with rfl | hb
    · exact isLetter_lt hc
    · have hname := hw b hb
      simp only [Bytes.isNameByte, Bool.or_eq_true] at hname
      exact hname.elim isLetter_lt isDigit_lt
  | whole hc hw =>
    refine Or.inl ?_
    rcases List.mem_cons.1 hb with rfl | hb
    · exact isDigit_lt hc
    · exact hdigits hw hb
  | decimal hc hw hd hv =>
    refine Or.inl ?_
    simp only [List.mem_cons, List.mem_append] at hb
    rcases hb with rfl | hb | rfl | rfl | hb
    · exact isDigit_lt hc
    · exact hdigits hw hb
    · decide
    · exact isDigit_lt hd
    · exact hdigits hv hb
  | sign hk =>
    have htable : ∀ e ∈ signs, ∀ x ∈ e.1, x < 128 := by decide +kernel
    exact Or.inl (htable _ hk b hb)

end Parts

/-! ## Whole texts -/

section Texts

variable {t : Bytes} {parts others : List (Part × Bytes)}

theorem scanFrom_of_splits (h : Splits t parts) (p : Pos) : scanFrom p t = ⟨tokensOf p parts, []⟩ := by
  induction h generalizing p with
  | nil => exact scanFrom_end rfl
  | cons h _ ih =>
    rw [scanFrom_longest h, ih]
    rfl

theorem Splits.of_longest {part : Part} {w : Bytes} (h : Longest part w t)
    (hrest : ∀ u, t = w ++ u → ∃ parts, Splits u parts) : ∃ parts, Splits t parts := by
  obtain ⟨u, rfl⟩ := h.starts
  obtain ⟨parts, hparts⟩ := hrest u rfl
  exact ⟨_, .cons h hparts⟩

/-- a text that is not empty and has no fault starts with a longest part -/
theorem exists_longest_of_errors_nil {b : UInt8} {rest : Bytes} {p : Pos} (h : (scanFrom p (b :: rest)).errors = []) :
    ∃ part w, Longest part w (b :: rest) := by
  by_cases hb : isBlankByte b = true
  · exact ⟨_, _, longest_blank hb⟩
  · by_cases hslash : b = Bytes.slash ∧ rest.head? = some Bytes.slash
    · obtain ⟨rfl, hhead⟩ := hslash
      obtain ⟨rest, rfl⟩ := List.head?_eq_some_iff.1 hhead
      exact ⟨_, _, longest_comment _⟩
    · have hblank : skipBlanks false p (b :: rest) = (p, b :: rest) := by
        rw [skipBlanks, if_neg hb, if_neg hslash]
      rw [scanFrom_next hblank] at h
      obtain ⟨kind, literal, w, hlongest⟩ :=
        exists_longest p (Bool.eq_false_iff.2 hb) hslash (List.append_eq_nil_iff.1 h).1
      exact ⟨_, _, hlongest⟩

theorem splits_of_errors_nil {p : Pos} (h : (scanFrom p t).errors = []) : ∃ parts, Splits t parts := by
  -- on the length of the text: a part is not empty
  induction hn : t.length using Nat.strong_induction_on generalizing p t with
  | _ n ih =>
    cases t with
    | nil => exact ⟨[], .nil⟩
    | cons b rest =>
      obtain ⟨part, w, hlongest⟩ := exists_longest_of_errors_nil h
      refine Splits.of_longest hlongest fun u hu => ?_
      rw [hu] at h hn hlongest
      rw [scanFrom_longest hlongest] at h
      have hpos := List.length_pos_iff.2 hlongest.reads.ne_nil
      rw [List.length_append] at hn
      exact ih u.length (by omega) h rfl

/-- a part alone is a text of one part -/
theorem Part.Reads.splits {part : Part} {w : Bytes} (h : part.Reads w) : Splits w [(part, w)] := by
  have hsplits : Splits (w ++ []) [(part, w)] := .cons (by rw [List.append_nil]; exact h.longest) .nil
  rwa [List.append_nil] at hsplits

theorem Splits.flatMap_eq (h : Splits t parts) : parts.flatMap Prod.snd = t := by
  induction h with
  | nil => rfl
  | cons _ _ ih => rw [List.flatMap_cons, ih]

/-- there is one way to split a text -/
theorem Splits.unique (h : Splits t parts) (h' : Splits t others) : parts = others := by
  induction h generalizing others with
  | nil =>
    generalize hnil : ([] : Bytes) = t at h'
    cases h' with
    | nil => rfl
    | cons h _ => exact absurd (List.append_eq_nil_iff.1 hnil.symm).1 h.reads.ne_nil
  | @cons part w rest parts h _ ih =>
    generalize heq : w ++ rest = t at h'
    cases h' with
    | nil => exact absurd (List.append_eq_nil_iff.1 heq).1 h.reads.ne_nil
    | @cons part' w' rest' others h' hrest' =>
      rw [heq] at h
      obtain rfl := h.eq_text h'
      obtain rfl := List.append_cancel_left heq
      rw [h.reads.functional h'.reads, ih hrest']

theorem Splits.lt_of_mem (h : Splits t parts) {part : Part} {w : Bytes} (hpart : (part, w) ∈ parts) {b : UInt8}
    (hb : b ∈ w) : b < 128 ∨ part = .comment ∨ ∃ s, part = .token .stringLiteral (.text s) := by
  induction h with
  | nil => cases hpart
  | cons h _ ih =>
    rcases List.mem_cons.1 hpart with heq | hpart
    · cases heq
      exact h.reads.lt_of_mem hb
    · exact ih hpart

end Texts

/-- **Exact longest match.** Reading reports no fault exactly when the text splits from left to right into blanks,
comments and tokens, each the longest text of any class where it starts. Then the tokens are those of the parts, in
order and at their places, and one end of input; the parts cover the text, there is one way to split it, and a byte
outside ASCII stands in a string or a comment. -/
theorem scan_exact (t : Bytes) :
    ((scan t).errors = [] ↔ ∃ parts, Splits t parts) ∧
    ∀ parts, Splits t parts →
      (scan t).tokens = tokensOf .start parts ∧ parts.flatMap Prod.snd = t ∧
      (∀ others, Splits t others → others = parts) ∧
      ∀ part w, (part, w) ∈ parts → ∀ b ∈ w, 128 ≤ b →
        part = .comment ∨ ∃ s, part = .token .stringLiteral (.text s) := by
  refine ⟨⟨splits_of_errors_nil, ?_⟩, ?_⟩
  · rintro ⟨parts, hparts⟩
    rw [scan, scanFrom_of_splits hparts]
  · intro parts hparts
    refine ⟨by rw [scan, scanFrom_of_splits hparts], hparts.flatMap_eq, fun others hothers => hothers.unique hparts, ?_⟩
    intro part w hpart b hb hhigh
    exact (hparts.lt_of_mem hpart hb).resolve_left (UInt8.not_lt.2 hhigh)

/-- a range, a decimal, an arrow, an escaped quote and a comment outside ASCII in one text -/
theorem scan_exact_mixed :
    ∃ parts, Splits (Ouroboros.text "1..5 2.5->\"\\\"é\" // é\nlet lets") parts ∧
      (scan (Ouroboros.text "1..5 2.5->\"\\\"é\" // é\nlet lets")).tokens = tokensOf .start parts ∧
      (scan (Ouroboros.text "1..5 2.5->\"\\\"é\" // é\nlet lets")).tokens.map Token.kind =
        [.number, .dots, .number, .number, .arrow, .stringLiteral, .letWord, .identifier, .endOfInput] := by
  obtain ⟨hiff, hparts⟩ := scan_exact (Ouroboros.text "1..5 2.5->\"\\\"é\" // é\nlet lets")
  obtain ⟨parts, hsplits⟩ := hiff.1 (by decide +kernel)
  exact ⟨parts, hsplits, (hparts parts hsplits).1, by decide +kernel⟩

end Token

end Ouroboros
