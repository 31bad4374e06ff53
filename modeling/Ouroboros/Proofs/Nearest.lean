/-
Which float an integer of 64 bits is rounded to.

Rounding cuts off the last binary places one after the other and keeps two bits of them. These say how what was cut off
compares with half a unit of the last place that is left (`Represents`), so the places that are left become the multiple of
the unit nearest to the integer, and of two that are equally near the even one (`Represents.rounded`).

No float lies nearer: one that is no multiple of the unit has a lower exponent, so it is below the first integer that has as
many binary places as the one that is rounded. `isNearest_ofInt` says so of all floats, those that are no integers included.
An integer that some float holds is thus rounded to itself (`Number.stands_ofInt`).
-/
import Ouroboros.Proofs.Integers

namespace Ouroboros.Decimal

open Float.Model Float.Model.UnpackedFloat

/-! ## The places that are cut off -/

/-- what is left of `n` in units of `u`: the mantissa says how often the unit fits, and the two bits say how the remainder
compares with half of it -/
def Represents (em : ExtendedMantissa) (n u : Nat) : Prop :=
  ∃ r < u, n = em.mantissa * u + r ∧
    match em.roundBit, em.stickyBit with
    | false, false => r = 0
    | false, true => 0 < r ∧ 2 * r < u
    | true, false => 2 * r = u
    | true, true => u < 2 * r

/-- `c` units are nearest to `n` among the multiples of the unit; of two that are equally near, they are the even one -/
structure IsNearestMultiple (c u n : Nat) : Prop where
  low : 2 * n ≤ 2 * (c * u) + u
  high : 2 * (c * u) ≤ 2 * n + u
  even : 2 * n = 2 * (c * u) + u ∨ 2 * (c * u) = 2 * n + u → c % 2 = 0

theorem represents_exact (n : Nat) : Represents (ExtendedMantissa.ofMantissaAndAccuracy n .exact) n 1 :=
  ⟨0, Nat.zero_lt_one, by simp [ExtendedMantissa.ofMantissaAndAccuracy], rfl⟩

/-- one place more is cut off, and joins what the bits say -/
theorem Represents.shiftRightOne {em : ExtendedMantissa} {n u : Nat} (h : Represents em n u) :
    Represents em.shiftRightOne n (u * 2) := by
  obtain ⟨m, roundBit, stickyBit⟩ := em
  obtain ⟨r, hr, hn, hbits⟩ := h
  dsimp only at hn hbits
  have hhalf : m * u = m / 2 * (u * 2) + m % 2 * u := by
    calc m * u = (2 * (m / 2) + m % 2) * u := by rw [Nat.div_add_mod]
      _ = m / 2 * (u * 2) + m % 2 * u := by ring
  refine ⟨m % 2 * u + r, ?_, by rw [hn, hhalf]; exact Nat.add_assoc .., ?_⟩
  · rcases Nat.mod_two_eq_zero_or_one m with hm | hm <;> rw [hm] <;> omega
  · rcases Nat.mod_two_eq_zero_or_one m with hm | hm <;>
      cases roundBit <;> cases stickyBit <;>
      simp only [ExtendedMantissa.shiftRightOne, hm] at hbits ⊢ <;> simp <;> omega

theorem Represents.shiftRight {em : ExtendedMantissa} {n u : Nat} (h : Represents em n u) (k : Nat) :
    Represents (em >>> k) n (u * 2 ^ k) := by
  change Represents (Nat.repeat ExtendedMantissa.shiftRightOne k em) n (u * 2 ^ k)
  induction k with
  | zero => rwa [Nat.pow_zero, Nat.mul_one]
  | succ k ih =>
    rw [Nat.pow_succ, ← Nat.mul_assoc]
    exact ih.shiftRightOne

theorem Represents.rounded {em : ExtendedMantissa} {n u : Nat} (h : Represents em n u) :
    IsNearestMultiple em.roundedMantissa u n := by
  obtain ⟨m, roundBit, stickyBit⟩ := em
  obtain ⟨r, hr, hn, hbits⟩ := h
  dsimp only at hn hbits
  generalize hc : ExtendedMantissa.roundedMantissa ⟨m, roundBit, stickyBit⟩ = c
  -- the multiple below `n` or the one above it; half a unit is left in front of an even one only
  have hsides : (c = m ∧ 2 * r ≤ u ∧ (2 * r = u → m % 2 = 0)) ∨ (c = m + 1 ∧ u ≤ 2 * r ∧ (2 * r = u → m % 2 = 1)) := by
    cases roundBit <;> cases stickyBit <;>
      simp only [ExtendedMantissa.roundedMantissa, ExtendedMantissa.accuracy, Accuracy.roundToNearestEven] at hc hbits <;>
      omega
  rcases hsides with ⟨rfl, hle, heven⟩ | ⟨rfl, hle, hodd⟩
  · exact ⟨by omega, by omega, by omega⟩
  · have hsucc : (m + 1) * u = m * u + u := Nat.succ_mul m u
    exact ⟨by omega, by omega, by omega⟩

/-! ## Distances -/

/-- the rational number that a float is, when it is finite -/
def value? (f : Float) : Option ℚ :=
  match read f with
  | .finite negative m q => some (signed negative m * 2 ^ q)
  | _ => none

/-- the float is finite, and its mantissa is even -/
def HasEvenMantissa (f : Float) : Prop := ∃ negative m q, read f = .finite negative m q ∧ m % 2 = 0

/-- no float is nearer to the integer, and where another one is as near, the mantissa of this one is even -/
def IsNearest (f : Float) (i : Int) : Prop :=
  ∃ x, value? f = some x ∧ ∀ g y, value? g = some y →
    |x - i| < |y - i| ∨ y = x ∨ |x - i| = |y - i| ∧ HasEvenMantissa f

theorem mantissa_lt {f : Float} {negative : Bool} {m : Nat} {q : Int} (h : read f = .finite negative m q) : m < 2 ^ 53 := by
  unfold read at h
  split at h
  · cases h
  · cases h
  · cases h
    exact Nat.two_pow_pos 53
  · rename_i hf
    cases h
    exact (canonical_unpack hf).mantissa

/-- floats that are integers are these rational numbers -/
theorem value?_of_integer? {f : Float} {i : Int} (h : integer? f = some i) : value? f = some (i : ℚ) := by
  unfold integer? at h
  unfold value?
  split at h
  · rename_i negative m q hread
    rw [hread, ← Option.some.inj h, ← signed_mul]
    simp [binaryPower]
  · rename_i negative m q hread
    split at h
    · rename_i hmod
      have hmul : (m / 2 ^ (q + 1) * 2 ^ (q + 1) : Nat) = m := Nat.div_mul_cancel (Nat.dvd_of_mod_eq_zero hmod)
      have hsigned : signed negative m = signed negative (m / 2 ^ (q + 1)) * (2 ^ (q + 1) : Nat) := by
        rw [signed_mul, hmul]
      have hpower : (2 : ℚ) ^ (q + 1) * 2 ^ (Int.negSucc q) = 1 := by
        rw [zpow_negSucc, mul_inv_cancel₀ (by positivity)]
      rw [hread, ← Option.some.inj h]
      dsimp only
      rw [hsigned]
      push_cast
      rw [mul_assoc, hpower, mul_one]
      rfl
    · cases h
  · cases h

/-- the number is a multiple of 2^k, or nearer to zero than all integers of 53 + k binary places -/
def IsSpaced (k : Nat) (y : ℚ) : Prop := (∃ d : Int, y = d * 2 ^ k) ∨ |y| < 2 ^ (52 + k)

theorem IsSpaced.neg {k : Nat} {y : ℚ} (h : IsSpaced k y) : IsSpaced k (-y) := by
  rcases h with ⟨d, rfl⟩ | hlt
  · exact .inl ⟨-d, by push_cast; ring⟩
  · exact .inr (by rwa [abs_neg])

/-- the mantissa of a float is below 2^53, so the float is spaced like its exponent, or small -/
theorem isSpaced_of_value? {f : Float} {y : ℚ} (h : value? f = some y) (k : Nat) : IsSpaced k y := by
  unfold value? at h
  split at h
  · rename_i negative m q hread
    obtain rfl := Option.some.inj h
    have hm : (m : ℚ) < 2 ^ 53 := by exact_mod_cast mantissa_lt hread
    rcases le_or_gt (k : Int) q with hle | hlt
    · obtain ⟨d, rfl⟩ := Int.le.dest hle
      refine .inl ⟨signed negative m * 2 ^ d, ?_⟩
      push_cast
      rw [zpow_add₀ two_ne_zero, zpow_natCast, zpow_natCast]
      ring
    · right
      have habs : |(signed negative m : ℚ)| = m := by cases negative <;> simp [signed]
      calc |(signed negative m : ℚ) * 2 ^ q| = m * 2 ^ q := by
            rw [abs_mul, habs, abs_of_pos (zpow_pos two_pos q)]
        _ < 2 ^ 53 * 2 ^ q := mul_lt_mul_of_pos_right hm (zpow_pos two_pos q)
        _ = 2 ^ (53 + q) := by rw [zpow_add₀ two_ne_zero]; rfl
        _ ≤ 2 ^ ((52 + k : Nat) : Int) := zpow_le_zpow_right₀ one_le_two (by push_cast; omega)
        _ = 2 ^ (52 + k) := zpow_natCast ..
  · cases h

/-- of the multiples of the unit, none is nearer -/
theorem IsNearestMultiple.le {c u n : Nat} (h : IsNearestMultiple c u n) (d : Int) :
    |(c * u : Int) - n| < |d * u - n| ∨ d = c ∨ |(c * u : Int) - n| = |d * u - n| ∧ c % 2 = 0 := by
  obtain ⟨hlow, hhigh, heven⟩ := h
  have hcast : ((c * u : Nat) : Int) = c * u := Int.natCast_mul c u
  have hc := abs_cases ((c * u : Int) - n)
  have hd := abs_cases ((d * u : Int) - n)
  rcases Int.lt_trichotomy d c with hlt | heq | hgt
  · have hstep : (d + 1) * u ≤ c * u := Int.mul_le_mul_of_nonneg_right hlt (Int.natCast_nonneg u)
    rw [Int.add_mul, Int.one_mul] at hstep
    omega
  · exact .inr (.inl heq)
  · have hstep : ((c : Int) + 1) * u ≤ d * u := Int.mul_le_mul_of_nonneg_right hgt (Int.natCast_nonneg u)
    rw [Int.add_mul, Int.one_mul] at hstep
    omega

/-- no float is nearer than the nearest multiple of the unit of the last of 53 binary places -/
theorem IsNearestMultiple.near {c n k : Nat} (h : IsNearestMultiple c (2 ^ k) n) (hn : 2 ^ (52 + k) ≤ n) {y : ℚ}
    (hy : IsSpaced k y) :
    |(c * 2 ^ k : ℚ) - n| < |y - n| ∨ y = c * 2 ^ k ∨ |(c * 2 ^ k : ℚ) - n| = |y - n| ∧ c % 2 = 0 := by
  have hmultiple (d : Int) : |(c * 2 ^ k : ℚ) - n| < |(d * 2 ^ k : ℚ) - n| ∨ (d : ℚ) = c ∨
      |(c * 2 ^ k : ℚ) - n| = |(d * 2 ^ k : ℚ) - n| ∧ c % 2 = 0 := by
    have hle := h.le d
    push_cast at hle
    exact_mod_cast hle
  rcases hy with ⟨d, rfl⟩ | hlt
  · exact (hmultiple d).imp_right (Or.imp_left fun heq => by rw [heq])
  · -- the first integer with as many binary places as `n` is a multiple of the unit, and lies between the float and `n`
    left
    have hfirst : |(c * 2 ^ k : ℚ) - n| ≤ |(2 ^ (52 + k) : ℚ) - n| := by
      have hmultiple := hmultiple (2 ^ 52)
      rw [Int.cast_pow, Int.cast_ofNat, ← pow_add] at hmultiple
      rcases hmultiple with hless | heq | ⟨heq, -⟩
      · exact hless.le
      · rw [← heq, ← pow_add]
      · exact heq.le
    have hn' : (2 ^ (52 + k) : ℚ) ≤ n := by exact_mod_cast hn
    have hy := (abs_lt.mp hlt).2
    calc |(c * 2 ^ k : ℚ) - n| ≤ |(2 ^ (52 + k) : ℚ) - n| := hfirst
      _ = n - 2 ^ (52 + k) := by rw [abs_sub_comm, abs_of_nonneg (by linarith)]
      _ < n - y := by linarith
      _ = |y - n| := by rw [abs_sub_comm, abs_of_pos (by linarith)]

/-- an integer with more than 53 binary places is rounded to the float nearest to it -/
theorem isNearest_packed_long (s : Sign) {n k : Nat} (hn : 0 < n) (hlog : n.log2 = 52 + k) (hk : k ≤ 11) :
    IsNearest (packed s n) (signed (s == .negative) n) := by
  obtain ⟨m, q, h, hunpack, hvalue, hm⟩ := unpack_packed_long s hn hlog hk
  have hmultiple : IsNearestMultiple (roundedOff n k) (2 ^ k) n := by
    have hshifted := (represents_exact n).shiftRight k
    rw [Nat.one_mul] at hshifted
    exact hshifted.rounded
  have hfirst : 2 ^ (52 + k) ≤ n := hlog ▸ Nat.log2_self_le (Nat.ne_of_gt hn)
  refine ⟨_, value?_of_integer? (integer?_of_whole hunpack), fun g y hy => ?_⟩
  rw [hvalue]
  have heven : roundedOff n k % 2 = 0 → HasEvenMantissa (packed s n) := by
    intro heven
    refine ⟨_, _, _, by rw [read, hunpack], ?_⟩
    rcases hm with rfl | rfl
    · exact heven
    · rfl
  have hspaced := isSpaced_of_value? hy k
  cases s with
  | positive =>
    have hnear := (hmultiple.near hfirst hspaced).imp_right (Or.imp_right (And.imp_right heven))
    simpa [signed] using hnear
  | negative =>
    -- all the same on the other side of zero
    have hnear := (hmultiple.near hfirst hspaced.neg).imp_right (Or.imp_right (And.imp_right heven))
    rw [abs_sub_comm, show -y - n = -(y - -(n : ℚ)) by ring, abs_neg, neg_eq_iff_eq_neg] at hnear
    simpa [signed, neg_add_eq_sub] using hnear

/-- an integer that a float is, is nearest to itself -/
theorem isNearest_of_integer? {f : Float} {i : Int} (h : integer? f = some i) : IsNearest f i := by
  refine ⟨i, value?_of_integer? h, fun g y _ => ?_⟩
  rw [sub_self, abs_zero]
  rcases eq_or_ne y i with heq | hne
  · exact .inr (.inl heq)
  · exact .inl (abs_pos.mpr (sub_ne_zero.mpr hne))

theorem signed_natAbs (i : Int) : signed ((if i < 0 then Sign.negative else .positive) == .negative) i.natAbs = i := by
  split
  · change -(i.natAbs : Int) = i
    omega
  · change (i.natAbs : Int) = i
    omega

theorem ofInt64_eq (n : Int64) (h : n.toInt ≠ 0) : Float.ofModel (Float.Model.ofInt64 n) =
    packed (if n.toInt < 0 then .negative else .positive) n.toInt.natAbs := by
  simp only [packed, Float.Model.ofInt64, UnpackedFloat.ofInt64, UnpackedFloat.ofInt, UnpackedFloat.normalize]
  split
  · rename_i hneg
    have hneg := Int.compare_eq_lt.mp hneg
    rw [if_pos hneg]
    congr
    omega
  · rename_i hzero
    exact absurd (Int.compare_eq_eq.mp hzero) h
  · rename_i hpos
    have hpos := Int.compare_eq_gt.mp hpos
    rw [if_neg (by omega)]
    congr
    omega

/-- **Integers of 64 bits become the floats nearest to them.** -/
theorem isNearest_ofInt64 (n : Int64) : IsNearest (Float.ofModel (Float.Model.ofInt64 n)) n.toInt := by
  rcases eq_or_ne n.toInt 0 with hzero | hne
  · obtain rfl : n = 0 := Int64.toInt_inj.mp hzero
    exact isNearest_of_integer? rfl
  · have hpos : 0 < n.toInt.natAbs := Int.natAbs_pos.mpr hne
    have hlow := n.le_toInt
    have hhigh := n.toInt_lt
    have hlog : n.toInt.natAbs.log2 < 64 := (Nat.log2_lt hpos.ne').mpr (by omega)
    have hsigned := signed_natAbs n.toInt
    rw [ofInt64_eq n hne]
    by_cases hshort : n.toInt.natAbs.log2 ≤ 52
    · have hinteger := integer?_packed_short (if n.toInt < 0 then .negative else .positive) hpos hshort
      rw [hsigned] at hinteger
      exact isNearest_of_integer? hinteger
    · have hnear := isNearest_packed_long (if n.toInt < 0 then .negative else .positive) hpos
        (k := n.toInt.natAbs.log2 - 52) (by omega) (by omega)
      rwa [hsigned] at hnear

/-- some float holds each integer up to 2^53 -/
theorem exists_integer? {i : Int} (h : |i| ≤ 2 ^ 53) : ∃ f, integer? f = some i := by
  rcases Int.lt_or_eq_of_le h with hlt | heq
  · rcases eq_or_ne i 0 with rfl | hne
    · exact ⟨0.0, by decide +kernel⟩
    · rw [Int.abs_eq_natAbs] at hlt
      have hlog : i.natAbs.log2 < 53 := (Nat.log2_lt (Int.natAbs_ne_zero.mpr hne)).mpr (by omega)
      have hinteger := integer?_packed_short (if i < 0 then .negative else .positive) (Int.natAbs_pos.mpr hne) (by omega)
      rw [signed_natAbs] at hinteger
      exact ⟨_, hinteger⟩
  · rcases (abs_eq (by decide)).mp heq with rfl | rfl
    · exact ⟨packed .positive (2 ^ 53), by decide +kernel⟩
    · exact ⟨packed .negative (2 ^ 53), by decide +kernel⟩

/-- an integer that some float holds is nearest to itself only -/
theorem IsNearest.exact {f g : Float} {i j : Int} (h : IsNearest f i) (hf : integer? f = some j) (hg : integer? g = some i) :
    j = i := by
  obtain ⟨x, hx, hleast⟩ := h
  obtain rfl := Option.some.inj (hx.symm.trans (value?_of_integer? hf))
  have hdistance : |(j : ℚ) - i| ≤ 0 := by
    rcases hleast g i (value?_of_integer? hg) with hless | heq | ⟨heq, -⟩
    · rw [sub_self, abs_zero] at hless
      exact hless.le
    · rw [heq, sub_self, abs_zero]
    · rw [heq, sub_self, abs_zero]
  have hzero := abs_eq_zero.mp (le_antisymm hdistance (abs_nonneg _))
  exact_mod_cast sub_eq_zero.mp hzero

end Ouroboros.Decimal

namespace Ouroboros.Number

/-- the number is an integer, and as a float nearest to `i`; it is `i` itself if a float can be, as all small ones can -/
structure Stands (n : Number) (i : Int) : Prop where
  isInt : n.isInt = true
  integral : ∃ j, Decimal.integer? n.value = some j
  nearest : Decimal.IsNearest n.value i
  exact : (∃ f, Decimal.integer? f = some i) → Decimal.integer? n.value = some i
  small : |i| ≤ 2 ^ 53 → Decimal.integer? n.value = some i

theorem stands_ofInt {i : Int} (hlow : -Decimal.int64Bound ≤ i) (hhigh : i < Decimal.int64Bound) : (ofInt i).Stands i := by
  have hi : (Int64.ofInt i).toInt = i := Int64.toInt_ofInt_of_le hlow hhigh
  obtain ⟨j, hj⟩ : ∃ j, Decimal.integer? (ofInt i).value = some j := sound_ofInt i rfl
  have hnearest : Decimal.IsNearest (ofInt i).value i := by
    have hnearest := Decimal.isNearest_ofInt64 (Int64.ofInt i)
    rwa [hi] at hnearest
  have hexact : (∃ f, Decimal.integer? f = some i) → Decimal.integer? (ofInt i).value = some i := by
    rintro ⟨f, hf⟩
    rw [hj, hnearest.exact hj hf]
  exact ⟨rfl, ⟨j, hj⟩, hnearest, hexact, fun hsmall => hexact (Decimal.exists_integer? hsmall)⟩

end Ouroboros.Number
