/-
The texts of numbers, read as numerals.

`IsNumeralOf w isInt v` says that the text is a numeral and that it is read as the number `v` is. Positional texts are
numerals of their decimals (`Numeral.positional_whole`, `Numeral.positional_decimal`), and a scientific text is a numeral
with an exponent behind it (`Numeral.scientific_eq`).

Which of the two a float gets depends on the power of ten of its shortest decimal, and so on the float itself: an integer
below 10^21 is a run of digits (`Number.text_int`), another number from 0.0001 up to a million has a point
(`Number.text_float`), and all others have an exponent (`Number.text_scientific`).
-/
import Ouroboros.Proofs.Numerals
import Ouroboros.Proofs.Readable
import Ouroboros.Proofs.Shortest

namespace Ouroboros

open Decimal

/-! ## Numerals and their values -/

/-- the text is a numeral, and it is read like the number -/
def IsNumeralOf (w : Bytes) (isInt : Bool) (v : ℚ) : Prop :=
  IsNumeral w isInt ∧ ∃ n k : Nat, readNumeral w = Float.ofScientific n true k ∧ v = n / 10 ^ k

theorem isDigits_iff {w : Bytes} : w.isDigits = true ↔ w ≠ [] ∧ ∀ b ∈ w, Bytes.isDigit b = true := by
  simp [Bytes.isDigits]

theorem isNumeralOf_whole {w : Bytes} (hw : w.isDigits = true) : IsNumeralOf w true (digitsValue w) := by
  have hdigits := (isDigits_iff.mp hw).2
  refine ⟨.whole hw, digitsValue w, 0, ?_, by simp⟩
  rw [readNumeral, List.takeWhile_eq_self_iff.mpr hdigits, List.dropWhile_eq_nil_iff.mpr hdigits]
  simp

theorem isNumeralOf_decimal {w v : Bytes} (hw : w.isDigits = true) (hv : v.isDigits = true) :
    IsNumeralOf (w ++ Bytes.point :: v) false (digitsValue (w ++ v) / 10 ^ v.length) := by
  have hdigits := (isDigits_iff.mp hw).2
  refine ⟨.decimal hw hv, digitsValue (w ++ v), v.length, ?_, rfl⟩
  obtain ⟨htake, hdrop⟩ := Token.takeWhile_append_apart (u := Bytes.point :: v) hdigits
    (by rintro b u ⟨⟩; rfl)
  rw [readNumeral, htake, hdrop]
  rfl

/-- a run of digits with a point and a zero behind it -/
theorem isNumeralOf_pointZero {w : Bytes} (hw : w.isDigits = true) :
    IsNumeralOf (w ++ text ".0") false (digitsValue w) := by
  have hnumeral := isNumeralOf_decimal (v := [Bytes.zero]) hw rfl
  have hvalue : ((digitsValue (w ++ [Bytes.zero]) : Nat) : ℚ) / 10 ^ [Bytes.zero].length = digitsValue w := by
    have happend : digitsValue (w ++ [Bytes.zero]) = digitsValue w * 10 := digitsValue_append w [Bytes.zero]
    rw [happend, List.length_singleton, pow_one]
    push_cast
    exact mul_div_cancel_right₀ _ (by norm_num)
  rwa [hvalue] at hnumeral

/-! ## Positional texts -/

namespace Decimal.Numeral

variable (d : Numeral)

theorem isDigits_digits : d.digits.isDigits = true :=
  isDigits_iff.mpr ⟨Bytes.ofNat_ne_nil _, fun _ h => Bytes.isDigit_ofNat h⟩

theorem length_digits : d.digits.length = digitCount d.coefficient := List.length_map _

/-- a decimal without a fraction is written as a run of digits -/
theorem positional_whole (h : 0 ≤ d.exponent) : d.positional.isDigits = true ∧ digitsValue d.positional = d.value := by
  obtain ⟨c, e⟩ := d
  obtain ⟨zeros, rfl⟩ := Int.eq_ofNat_of_zero_le h
  have hdigits := isDigits_iff.mp (isDigits_digits ⟨c, zeros⟩)
  have hwhole : (positional ⟨c, zeros⟩).isDigits = true := by
    refine isDigits_iff.mpr ⟨fun hnil => hdigits.1 (List.append_eq_nil_iff.mp hnil).1, fun b hb => ?_⟩
    rcases List.mem_append.mp hb with hb | hb
    · exact hdigits.2 b hb
    · rw [List.eq_of_mem_replicate hb]
      rfl
  have hvalue : ((digitsValue (positional ⟨c, zeros⟩) : Nat) : ℚ) = value ⟨c, zeros⟩ := by
    change ((digitsValue (Bytes.ofNat c ++ List.replicate zeros Bytes.zero) : Nat) : ℚ) = c * 10 ^ (zeros : Int)
    rw [digitsValue_append, digitsValue_ofNat, digitsValue_zeros, List.length_replicate, zpow_natCast]
    push_cast
    ring
  exact ⟨hwhole, hvalue⟩

/-- a decimal with a fraction is written with a point -/
theorem positional_decimal (h : d.exponent < 0) : IsNumeralOf d.positional false d.value := by
  obtain ⟨c, e⟩ := d
  obtain ⟨n, rfl⟩ := Int.eq_negSucc_of_lt_zero h
  -- zeros in front of the digits make them longer than the fraction
  let padded : Bytes := List.replicate (n + 1 + 1 - (Bytes.ofNat c).length) Bytes.zero ++ Bytes.ofNat c
  have hlength : n + 1 + 1 ≤ padded.length := by
    simp only [padded, List.length_append, List.length_replicate]
    omega
  have hdigits : ∀ b ∈ padded, Bytes.isDigit b = true := by
    intro b hb
    rcases List.mem_append.mp hb with hb | hb
    · rw [List.eq_of_mem_replicate hb]
      rfl
    · exact Bytes.isDigit_ofNat hb
  have hpadded : digitsValue padded = c := by
    rw [digitsValue_append, digitsValue_zeros, digitsValue_ofNat, Nat.zero_mul, Nat.zero_add]
  have hfront : Bytes.isDigits (padded.take (padded.length - (n + 1))) = true :=
    isDigits_iff.mpr ⟨fun hnil => by
      have hlength' := congrArg List.length hnil
      rw [List.length_take, List.length_nil] at hlength'
      omega, fun b hb => hdigits b (List.mem_of_mem_take hb)⟩
  have hback : (padded.drop (padded.length - (n + 1))).length = n + 1 := by
    rw [List.length_drop]
    omega
  have hfraction : Bytes.isDigits (padded.drop (padded.length - (n + 1))) = true :=
    isDigits_iff.mpr ⟨List.ne_nil_of_length_eq_add_one hback, fun b hb => hdigits b (List.mem_of_mem_drop hb)⟩
  have hnumeral := isNumeralOf_decimal hfront hfraction
  rw [List.take_append_drop, hpadded, hback] at hnumeral
  have hvalue : value ⟨c, Int.negSucc n⟩ = c / 10 ^ (n + 1) := by
    change (c : ℚ) * 10 ^ Int.negSucc n = _
    rw [zpow_negSucc, div_eq_mul_inv]
  have htext : positional ⟨c, Int.negSucc n⟩ = padded.take (padded.length - (n + 1)) ++
      Bytes.point :: padded.drop (padded.length - (n + 1)) := by
    change padded.take (padded.length - (n + 1)) ++ [Bytes.point] ++ padded.drop (padded.length - (n + 1)) = _
    rw [List.append_assoc]
    rfl
  rw [hvalue, htext]
  exact hnumeral

/-- a scientific text is a numeral with an exponent behind it -/
theorem scientific_eq (width : Nat) : ∃ w isInt u, IsNumeral w isInt ∧ d.scientific width = w ++ 101 :: u := by
  obtain ⟨b, fraction, hdigits, hb, hfraction⟩ := exists_digit d.isDigits_digits
  obtain ⟨u, hu⟩ : ∃ u, (if d.leadingPower < 0 then text "e-" else text "e+") ++
      (List.replicate (width - (Bytes.ofNat d.leadingPower.natAbs).length) Bytes.zero ++
        Bytes.ofNat d.leadingPower.natAbs) = 101 :: u := by
    split
    · exact ⟨_, rfl⟩
    · exact ⟨_, rfl⟩
  have hfirst : Bytes.isDigits [b] = true := by simp [Bytes.isDigits, hb]
  simp only [scientific, hdigits, List.take_succ_cons, List.take_zero, List.drop_succ_cons, List.drop_zero,
    List.append_assoc, hu]
  by_cases hnil : fraction = []
  · refine ⟨[b], true, u, .whole hfirst, ?_⟩
    rw [if_pos hnil, List.nil_append]
  · refine ⟨[b] ++ Bytes.point :: fraction, false, u, .decimal hfirst (isDigits_iff.mpr ⟨hnil, hfraction⟩), ?_⟩
    rw [if_neg hnil, List.append_assoc]

/-- the leading power says between which powers of ten a decimal lies -/
theorem leadingPower_lt {d : Numeral} (hd : 0 < d.coefficient) (a : Int) : d.leadingPower < a ↔ d.value < 10 ^ a := by
  obtain ⟨hlow, hhigh⟩ := digitCount_bounds hd
  have hcount := digitCount_pos d.coefficient
  have hpower (k : Nat) : (10 : ℚ) ^ (k + d.exponent) = (10 ^ k : Nat) * 10 ^ d.exponent := by
    rw [zpow_add₀ (by norm_num), zpow_natCast]
    push_cast
    rfl
  have hscale : (0 : ℚ) < 10 ^ d.exponent := zpow_pos (by norm_num) _
  have hbelow : 10 ^ ((digitCount d.coefficient - 1 : Nat) + d.exponent) ≤ d.value := by
    rw [hpower]
    exact mul_le_mul_of_nonneg_right (by exact_mod_cast hlow) hscale.le
  have habove : d.value < 10 ^ (digitCount d.coefficient + d.exponent) := by
    rw [hpower]
    exact mul_lt_mul_of_pos_right (by exact_mod_cast hhigh) hscale
  rw [leadingPower, length_digits]
  constructor
  · intro h
    exact habove.trans_le (zpow_le_zpow_right₀ (by norm_num) (by omega))
  · intro h
    have hlt := (zpow_lt_zpow_iff_right₀ (by norm_num)).mp (hbelow.trans_lt h)
    omega

/-- a decimal is written positionally when it lies between the bounds of the layout -/
theorem layOut_eq {l : Layout} {d : Numeral} (hd : 0 < d.coefficient) :
    d.layOut l = if 10 ^ l.least ≤ d.value ∧ d.value < 10 ^ l.bound then d.positional
      else d.scientific l.exponentWidth := by
  have hleast : l.least ≤ d.leadingPower ↔ 10 ^ l.least ≤ d.value := by
    rw [← not_lt, leadingPower_lt hd, not_lt]
  simp only [layOut, hleast, leadingPower_lt hd]

end Decimal.Numeral

/-! ## Texts of positive numbers -/

namespace Number

/-- a numeral shows that it is no integer if it has a point -/
theorem showsFloat_numeral {w : Bytes} {isInt : Bool} (h : IsNumeral w isInt) : showsFloat w = !isInt := by
  have hdigits {v : Bytes} (hv : v.isDigits = true) : showsFloat v = false := by
    rw [showsFloat, List.any_eq_false]
    intro b hb hmem
    have hdigit := (isDigits_iff.mp hv).2 b hb
    have hnone : ∀ c ∈ Ouroboros.text ".eEIN", Bytes.isDigit c = false := by decide +kernel
    rw [hnone b (List.contains_iff_mem.mp hmem)] at hdigit
    cases hdigit
  cases h with
  | whole h => rw [hdigits h]; rfl
  | @decimal w v hw hv =>
    rw [showsFloat, List.any_append, List.any_cons]
    have hpoint : (Ouroboros.text ".eEIN").contains Bytes.point = true := by decide +kernel
    rw [hpoint]
    simp

section Positive

variable {value : Float} {m : Nat} {q : Int} (hf : read value = .finite false m q) (hm : 0 < m)

include hf hm

theorem abs_eq : value.abs = value := by
  have hunpack := unpack_of_read_positive hf hm
  change Float.ofModel (Float.Model.pack value.toModel.unpack.abs) = value
  rw [hunpack]
  exact ofModel_pack hunpack Float.Model.UnpackedFloat.noConfusion

theorem floatText_eq (write : Numeral → Bytes) : floatText write value = write (shortest m q) := by
  rw [floatText, hf]
  simp only [signText, decimal, Nat.ne_of_gt hm, if_false]
  rfl

omit hm in
theorem lt_positionalBound : value < positionalBound ↔ (m : ℚ) * 2 ^ q < 10 ^ 21 := by
  have hbound : read positionalBound = .finite false 7629394531250000 17 := by decide +kernel
  rw [lt_iff_of_value? (value?_of_read hf) (value?_of_read hbound)]
  norm_num

/-- an integer that is not too large is written as a run of digits -/
theorem text_int (hint : isIntegral value = true) (hsmall : (m : ℚ) * 2 ^ q < 10 ^ 21) :
    IsNumeralOf (text ⟨value, true⟩) true (shortest m q).value := by
  have hshort : (true && decide (value.abs < positionalBound)) = true := by
    rw [abs_eq hf hm, Bool.true_and, decide_eq_true_eq]
    exact (lt_positionalBound hf).mpr hsmall
  have htext : text ⟨value, true⟩ = (shortest m q).positional := by
    rw [text, if_pos hshort, floatText_eq hf hm]
  obtain ⟨i, hi⟩ := Option.isSome_iff_exists.mp hint
  have hvalue : (m : ℚ) * 2 ^ q = i := Option.some.inj ((value?_of_read hf).symm.trans (value?_of_integer? hi))
  have hpos : (0 : ℚ) < m * 2 ^ q := value_pos hm q
  have hi' : 0 ≤ i := by
    rw [hvalue] at hpos
    exact_mod_cast hpos.le
  obtain ⟨n, rfl⟩ := Int.eq_ofNat_of_zero_le hi'
  have hexponent := exponent_shortest (canonical_of_read hf hm) hm (n := n) (by exact_mod_cast hvalue)
  obtain ⟨hdigits, hwhole⟩ := Numeral.positional_whole _ hexponent
  rw [htext, ← hwhole]
  exact isNumeralOf_whole hdigits

theorem text_layOut {isInt : Bool} (h : isInt = true → (10 : ℚ) ^ 21 ≤ m * 2 ^ q) :
    text ⟨value, isInt⟩ =
      let t := (shortest m q).layOut layout
      if showsFloat t then t else t ++ Ouroboros.text ".0" := by
  have hlarge : ¬(isInt && decide (value.abs < positionalBound)) = true := by
    rw [abs_eq hf hm, Bool.and_eq_true, decide_eq_true_eq, lt_positionalBound hf]
    exact fun hboth => not_lt_of_ge (h hboth.1) hboth.2
  rw [text, if_neg hlarge, floatText_eq hf hm]

/-- the layout is positional for the same floats as for their decimals -/
theorem layOut_shortest : (shortest m q).layOut layout =
    if 1 / 10 ^ 4 ≤ (m : ℚ) * 2 ^ q ∧ (m : ℚ) * 2 ^ q < 10 ^ 6 then (shortest m q).positional
    else (shortest m q).scientific 2 := by
  have hleast : (10 : ℚ) ^ layout.least ≤ (shortest m q).value ↔ 1 / 10 ^ 4 ≤ (m : ℚ) * 2 ^ q := by
    have hsides := not_congr (shortest_lt_least hf hm)
    rw [not_lt, not_lt] at hsides
    norm_num [layout] at hsides ⊢
    exact hsides
  have hbound : (shortest m q).value < 10 ^ layout.bound ↔ (m : ℚ) * 2 ^ q < 10 ^ 6 := shortest_lt_million hf hm
  rw [Numeral.layOut_eq (coefficient_shortest (canonical_of_read hf hm) hm)]
  simp only [hleast, hbound]
  rfl

/-- a number between the bounds of the layout is written with a point -/
theorem text_float (hlow : 1 / 10 ^ 4 ≤ (m : ℚ) * 2 ^ q) (hhigh : (m : ℚ) * 2 ^ q < 10 ^ 6) :
    IsNumeralOf (text ⟨value, false⟩) false (shortest m q).value := by
  have hlayout : (shortest m q).layOut layout = (shortest m q).positional :=
    (layOut_shortest hf hm).trans (if_pos ⟨hlow, hhigh⟩)
  rw [text_layOut hf hm (fun h => absurd h Bool.false_ne_true), hlayout]
  rcases lt_or_ge (shortest m q).exponent 0 with hneg | hnonneg
  · have hnumeral := Numeral.positional_decimal _ hneg
    dsimp only
    rwa [if_pos (by rw [showsFloat_numeral hnumeral.1]; rfl)]
  · obtain ⟨hdigits, hwhole⟩ := Numeral.positional_whole _ hnonneg
    dsimp only
    rw [if_neg (by rw [showsFloat_numeral (.whole hdigits)]; decide), ← hwhole]
    exact isNumeralOf_pointZero hdigits

/-- a number beyond the bounds is written with an exponent -/
theorem text_scientific {isInt : Bool} (h : isInt = true → (10 : ℚ) ^ 21 ≤ m * 2 ^ q)
    (hbeyond : ¬(1 / 10 ^ 4 ≤ (m : ℚ) * 2 ^ q ∧ (m : ℚ) * 2 ^ q < 10 ^ 6)) :
    text ⟨value, isInt⟩ = (shortest m q).scientific 2 := by
  have hexponent : showsFloat ((shortest m q).scientific 2) = true := by
    obtain ⟨w, isInt', u, -, htext⟩ := Numeral.scientific_eq (shortest m q) 2
    rw [htext, showsFloat, List.any_append, List.any_cons]
    have hmem : (Ouroboros.text ".eEIN").contains 101 = true := by decide +kernel
    rw [hmem]
    simp
  have hlayout : (shortest m q).layOut layout = (shortest m q).scientific 2 :=
    (layOut_shortest hf hm).trans (if_neg hbeyond)
  rw [text_layOut hf hm h, hlayout]
  dsimp only
  rw [if_pos hexponent]

end Positive

end Number

end Ouroboros
