/-
Scanning the texts of numbers.

A numeral is scanned as one token. With an exponent behind it more tokens come after it, since no numeral goes on with a
letter (`Token.scan_exponent`), and in front of a negative zero stands the token of its sign (`Token.scan_minus`).

So a number that was not read from a source is scanned from its text when the text is positional, and only then
(`Expr.render_number_scanned`).
-/
import Ouroboros.Proofs.NumberText
import Ouroboros.Proofs.Scanning.Longest

namespace Ouroboros

open Decimal

/-! ## Scanning -/

namespace Token

/-- a numeral is scanned as one token -/
theorem scan_numeral {w : Bytes} {isInt : Bool} (h : IsNumeral w isInt) : (scan w).errors = [] ∧
    ∃ t q, (scan w).tokens = [t, .finish q] ∧ t.kind = .number ∧ t.lexeme = w ∧ t.literal = .number (readNumeral w) := by
  obtain ⟨herrors, us, q, htokens, hplain⟩ := scanFrom_of_writes (loose_of_isSpelled h.isSpelled) rfl .start
  obtain ⟨t, rfl, ht⟩ := List.map_eq_singleton_iff.mp hplain
  have hkind : t.kind = .number := congrArg Token.kind ht
  have hlexeme : t.lexeme = w := by
    have hlexeme := congrArg Token.lexeme ht
    simpa [plain, hkind, numeral] using hlexeme
  have hliteral : t.literal = .number (readNumeral w) := congrArg Token.literal ht
  exact ⟨herrors, t, q, htokens, hkind, hlexeme, hliteral⟩

/-- a numeral ends in front of a byte that is neither a digit nor a point -/
theorem nextPiece_isNumeral {w u : Bytes} {isInt : Bool} (h : IsNumeral w isInt) {c : UInt8} (hc : Bytes.isDigit c = false)
    (hpoint : c ≠ Bytes.point) (p : Pos) : ∃ b v, w = b :: v ∧ Bytes.isDigit b = true ∧
      nextPiece p b (v ++ c :: u) = piece .number w (.number (readNumeral w)) p (c :: u) := by
  have hend : ∀ b' u', c :: u = b' :: u' → Bytes.isDigit b' = false := by
    rintro b' u' ⟨⟩
    exact hc
  cases h with
  | whole hw =>
    obtain ⟨b, v, rfl, hb, hv⟩ := exists_digit hw
    refine ⟨b, v, rfl, hb, ?_⟩
    have hfraction : fraction (c :: u) = ([], c :: u) := by
      refine fraction_eq_nil ?_
      rintro d u' ⟨⟩
      exact absurd rfl hpoint
    simpa only [List.append_nil] using nextPiece_numeral p hb hv (v := []) hend hfraction
  | @decimal w v hw hv =>
    obtain ⟨b, w, rfl, hb, hw⟩ := exists_digit hw
    obtain ⟨d, v, rfl, hd, hv⟩ := exists_digit hv
    refine ⟨b, w ++ Bytes.point :: d :: v, rfl, hb, ?_⟩
    refine nextPiece_numeral p hb hw ?_ (fraction_append hd hv hend)
    rintro b' u' ⟨⟩
    rfl

/-- a token in front of a text -/
theorem scanFrom_piece {p : Pos} {b : UInt8} {u : Bytes} (hblank : isBlankByte b = false) (hslash : b ≠ Bytes.slash)
    {kind : TokenKind} {lexeme rest : Bytes} {literal : Literal}
    (h : nextPiece p b u = piece kind lexeme literal p rest) :
    (scanFrom p (b :: u)).tokens = ⟨kind, lexeme, literal, p⟩ :: (scanFrom (p.after lexeme) rest).tokens := by
  have hskip : skipBlanks false p (b :: u) = (p, b :: u) := by
    rw [skipBlanks, if_neg (by rw [hblank]; decide), if_neg (fun hboth => hslash hboth.1)]
  rw [scanFrom_next hskip, h]
  rfl

/-- a numeral with an exponent behind it is scanned as more than one token -/
theorem scan_exponent {w u : Bytes} {isInt : Bool} (h : IsNumeral w isInt) :
    ∃ t t' t'' ts, (scan (w ++ 101 :: u)).tokens = t :: t' :: t'' :: ts := by
  obtain ⟨b, v, rfl, hb, hpiece⟩ := nextPiece_isNumeral (u := u) h (c := 101) rfl (by decide) .start
  have hfirst := scanFrom_piece (isBlankByte_eq_false hb (by decide)) (ne_of_class hb (by decide)) hpiece
  have hsecond := scanFrom_piece (p := Pos.start.after (b :: v)) (b := 101) (u := u) (by decide) (by decide) rfl
  obtain ⟨ts, q, hlast, -⟩ := exists_tokens_eq ((Pos.start.after (b :: v)).after (101 :: u.takeWhile Bytes.isNameByte))
    (u.dropWhile Bytes.isNameByte)
  rw [hlast] at hsecond
  rw [hsecond] at hfirst
  cases ts with
  | nil => exact ⟨_, _, _, [], hfirst⟩
  | cons t ts => exact ⟨_, _, _, _, hfirst⟩

/-- a text that starts with a minus sign and a digit is scanned with the sign as its first token -/
theorem scan_minus {d : UInt8} (u : Bytes) (hd : Bytes.isDigit d = true) :
    ∃ t ts, (scan (Bytes.minus :: d :: u)).tokens = t :: ts ∧ t.kind = .minus := by
  have hpiece : nextPiece .start Bytes.minus (d :: u) = piece .minus [Bytes.minus] .none .start (d :: u) := by
    have hlong : longSign? Bytes.minus (d :: u) = none := by
      have hd' : d ≠ 62 := ne_of_class hd (by decide)
      have hpoint : Bytes.minus ≠ Bytes.point := by decide
      simp [longSign?, hd', hpoint]
    rw [nextPiece, if_neg (by decide), if_neg (by decide), if_neg (by decide), signPiece, hlong]
    rfl
  exact ⟨_, _, scanFrom_piece (by decide) (by decide) hpiece, rfl⟩

end Token

/-! ## Reading back -/

namespace Number

/-- the text is one numeral: it is scanned without fault as one number token of the number's value, which has a point just
when the number does not count as an integer -/
structure IsScannedFrom (n : Number) (w : Bytes) : Prop where
  faultless : (Token.scan w).errors = []
  single : ∃ t q, (Token.scan w).tokens = [t, .finish q] ∧ t.kind = .number ∧ t.literal = .number n.value ∧
    (Bytes.point ∈ t.lexeme ↔ n.isInt = false)

/-- whether numbers of this size are written without an exponent -/
def IsPositional (isInt : Bool) (x : ℚ) : Prop := if isInt then x < 10 ^ 21 else x = 0 ∨ 1 / 10 ^ 4 ≤ x ∧ x < 10 ^ 6

theorem isScannedFrom_numeral {value : Float} {isInt : Bool} {w : Bytes} (h : IsNumeral w isInt)
    (hread : readNumeral w = value) : IsScannedFrom ⟨value, isInt⟩ w := by
  obtain ⟨herrors, t, q, htokens, hkind, hlexeme, hliteral⟩ := Token.scan_numeral h
  refine ⟨herrors, t, q, htokens, hkind, by rw [hliteral, hread], ?_⟩
  rw [hlexeme, ← h.spellsInt, Parse.spellsInt, Bool.not_eq_false', List.contains_iff_mem]

theorem not_isScannedFrom_exponent {n : Number} {w u : Bytes} {isInt : Bool} (h : IsNumeral w isInt) :
    ¬n.IsScannedFrom (w ++ 101 :: u) := by
  rintro ⟨-, t, q, htokens, -⟩
  obtain ⟨_, _, _, _, hmore⟩ := Token.scan_exponent (u := u) h
  rw [htokens] at hmore
  cases hmore

theorem not_isScannedFrom_minus {n : Number} {d : UInt8} (u : Bytes) (hd : Bytes.isDigit d = true) :
    ¬n.IsScannedFrom (Bytes.minus :: d :: u) := by
  rintro ⟨-, t, q, htokens, hkind, -⟩
  obtain ⟨t', ts, hminus, hkind'⟩ := Token.scan_minus u hd
  rw [htokens] at hminus
  cases hminus
  rw [hkind] at hkind'
  cases hkind'

section Positive

variable {value : Float} {m : Nat} {q : Int} (hf : Decimal.read value = .finite false m q) (hm : 0 < m)

include hf hm

/-- a numeral of the shortest decimal is scanned as the number -/
theorem isScannedFrom_shortest {isInt : Bool} {w : Bytes} (h : IsNumeralOf w isInt (shortest m q).value) :
    IsScannedFrom ⟨value, isInt⟩ w := by
  obtain ⟨hnumeral, n, k, hread, hvalue⟩ := h
  refine isScannedFrom_numeral hnumeral (hread.trans ?_)
  refine ofScientific_eq hf hm ?_
  rw [← hvalue]
  exact roundsTo_shortest (canonical_of_read hf hm) hm

theorem isScannedFrom_text_positive {isInt : Bool} (hint : isInt = true → isIntegral value = true) :
    IsScannedFrom ⟨value, isInt⟩ (text ⟨value, isInt⟩) ↔ IsPositional isInt (m * 2 ^ q) := by
  have hpos : (0 : ℚ) < m * 2 ^ q := value_pos hm q
  have hbeyond {isInt : Bool} (h : isInt = true → (10 : ℚ) ^ 21 ≤ m * 2 ^ q)
      (hbeyond : ¬(1 / 10 ^ 4 ≤ (m : ℚ) * 2 ^ q ∧ (m : ℚ) * 2 ^ q < 10 ^ 6)) :
      ¬IsScannedFrom ⟨value, isInt⟩ (text ⟨value, isInt⟩) := by
    obtain ⟨w, isInt', u, hw, htext⟩ := Numeral.scientific_eq (shortest m q) 2
    rw [text_scientific hf hm h hbeyond, htext]
    exact not_isScannedFrom_exponent hw
  cases isInt with
  | true =>
    rw [IsPositional, if_pos rfl]
    refine ⟨fun h => ?_, fun h => isScannedFrom_shortest hf hm (text_int hf hm (hint rfl) h)⟩
    by_contra hlarge
    rw [not_lt] at hlarge
    refine hbeyond (fun _ => hlarge) (fun hboth => ?_) h
    linarith [hboth.2]
  | false =>
    rw [IsPositional, if_neg Bool.false_ne_true]
    refine ⟨fun h => ?_, fun h => ?_⟩
    · by_contra hnot
      exact hbeyond (fun h => absurd h Bool.false_ne_true) (fun hboth => hnot (.inr hboth)) h
    · obtain ⟨hlow, hhigh⟩ := h.resolve_left hpos.ne'
      exact isScannedFrom_shortest hf hm (text_float hf hm hlow hhigh)

end Positive

theorem isScannedFrom_text_zero {value : Float} (hf : Decimal.read value = .finite false 0 0) (isInt : Bool) :
    IsScannedFrom ⟨value, isInt⟩ (text ⟨value, isInt⟩) := by
  obtain rfl : value = 0.0 := (eq_of_read_zero hf).2
  cases isInt with
  | true =>
    have htext : text ⟨0.0, true⟩ = [Bytes.zero] := by decide +kernel
    rw [htext]
    exact isScannedFrom_numeral (.whole rfl) (by decide +kernel)
  | false =>
    have htext : text ⟨0.0, false⟩ = [Bytes.zero] ++ Bytes.point :: [Bytes.zero] := by decide +kernel
    rw [htext]
    exact isScannedFrom_numeral (.decimal rfl rfl) (by decide +kernel)

theorem not_isScannedFrom_text_negative {value : Float} (hf : Decimal.read value = .finite true 0 0) (isInt : Bool) :
    ¬IsScannedFrom ⟨value, isInt⟩ (text ⟨value, isInt⟩) := by
  obtain rfl : value = -0.0 := (eq_of_read_zero hf).2
  cases isInt with
  | true =>
    have htext : text ⟨-0.0, true⟩ = Bytes.minus :: Bytes.zero :: [] := by decide +kernel
    rw [htext]
    exact not_isScannedFrom_minus _ rfl
  | false =>
    have htext : text ⟨-0.0, false⟩ = Bytes.minus :: Bytes.zero :: [Bytes.point, Bytes.zero] := by decide +kernel
    rw [htext]
    exact not_isScannedFrom_minus _ rfl

end Number

namespace Expr

/-- **A number without a spelling.** A number node that is not negative is scanned from its text as one number token, unless
it is the negative zero, an integer from 10^21 on, or another number below 0.0001 or from a million on: the text of these
starts with a sign or has an exponent, which no numeral of a source has. -/
theorem render_number_scanned (pos : Pos) {value : Float} {isInt : Bool} {x : ℚ} (hx : value? value = some x)
    (hnonneg : 0 ≤ x) (hint : isInt = true → isIntegral value = true) :
    Number.IsScannedFrom ⟨value, isInt⟩ (Expr.number pos value isInt []).render ↔
      Decimal.read value ≠ .finite true 0 0 ∧ Number.IsPositional isInt x := by
  change Number.IsScannedFrom ⟨value, isInt⟩ (Number.text ⟨value, isInt⟩) ↔ _
  unfold value? at hx
  split at hx
  · rename_i negative m q hread
    obtain rfl := Option.some.inj hx
    rcases Nat.eq_zero_or_pos m with rfl | hm
    · obtain ⟨rfl, -⟩ := eq_of_read_zero hread
      cases negative with
      | true =>
        exact ⟨fun h => absurd h (Number.not_isScannedFrom_text_negative hread isInt), fun h => absurd hread h.1⟩
      | false =>
        have hzero : Number.IsPositional isInt 0 := by cases isInt <;> simp [Number.IsPositional]
        have hne : Decimal.read value ≠ .finite true 0 0 := by
          rw [hread]
          rintro ⟨⟩
        refine ⟨fun _ => ⟨hne, ?_⟩, fun _ => Number.isScannedFrom_text_zero hread isInt⟩
        simpa [signed] using hzero
    · cases negative with
      | true =>
        -- the number would be negative
        have hpos : (0 : ℚ) < m * 2 ^ q := value_pos hm q
        simp only [signed, if_true, Int.cast_neg, Int.cast_natCast, neg_mul] at hnonneg
        linarith
      | false =>
        have hne : Decimal.read value ≠ .finite true 0 0 := by
          rw [hread]
          rintro ⟨⟩
        exact (Number.isScannedFrom_text_positive hread hm hint).trans (and_iff_right hne).symm
  · cases hx

theorem render_number_scanned_million :
    ¬Number.IsScannedFrom ⟨1000000.0, false⟩ (Expr.number .unknown 1000000.0 false []).render ∧
      Number.IsScannedFrom ⟨2.5, false⟩ (Expr.number .unknown 2.5 false []).render := by
  have hmillion : value? 1000000.0 = some (1000000 : ℚ) := by
    rw [value?_of_read (m := 8589934592000000) (q := -33) (by decide +kernel)]
    norm_num
  have hsmall : value? 2.5 = some (5 / 2 : ℚ) := by
    rw [value?_of_read (m := 5629499534213120) (q := -51) (by decide +kernel)]
    norm_num
  constructor
  · intro h
    have hpositional := ((render_number_scanned .unknown hmillion (by norm_num) (by decide)).mp h).2
    norm_num [Number.IsPositional] at hpositional
  · refine (render_number_scanned .unknown hsmall (by norm_num) (by decide)).mpr ⟨by decide +kernel, ?_⟩
    norm_num [Number.IsPositional]

/-- a million as a float has an exponent in its text -/
example : (Expr.number .unknown 1000000.0 false []).render = text "1e+06" := by decide +kernel

end Expr

end Ouroboros
