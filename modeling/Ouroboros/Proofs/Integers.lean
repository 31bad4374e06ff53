/-
Integers among floats.

A finite float holds a mantissa and an exponent in a form of which each value has one (`Decimal.Canonical`): the mantissa
has 53 binary places, and fewer only with the least exponent. So floats are compared as their values (`Decimal.weight_le`),
and floats that are integers are in the order of these integers (`Decimal.le_of_not_lt`).

An integer of 64 bits is rounded to a float that is an integer again (`Decimal.isIntegral_ofInt64`): with at most 53 binary
places it stays as it is, and a longer one becomes a multiple of a power of two. So all ways in which numbers are made give
numbers that count as integers only if they are (`Number.Sound`).
-/
import Mathlib
import Ouroboros.Number

namespace Ouroboros.Decimal

open Float.Model Float.Model.UnpackedFloat

/-! ## What floats hold -/

/-- a mantissa and an exponent as finite floats have them: 53 binary places, and fewer only with the least exponent -/
structure Canonical (m : Nat) (q : Int) : Prop where
  mantissa : m < 2 ^ 53
  least : leastExponent ≤ q
  normal : 2 ^ 52 ≤ m ∨ q = leastExponent

theorem toNat_implicit (v : BitVec 52) : (1#1 ++ v).toNat = 2 ^ 52 + v.toNat := by
  rw [BitVec.toNat_append, ← Nat.shiftLeft_add_eq_or_of_lt v.isLt]
  simp [Nat.shiftLeft_eq]

/-- what a float holds is canonical -/
theorem canonical_unpack {f : Float.Model} {s : Sign} {m : Nat} {q : Int} {h : 0 < m}
    (hf : f.unpack = .finite s m q h) : Canonical m q := by
  unfold Float.Model.unpack UnpackedFloat.unpack at hf
  dsimp only [Format.exponentBias] at hf
  have hv : (@unpackMantissa Format.binary64 f.toBits.toBitVec).toNat < 2 ^ 52 := BitVec.isLt _
  split at hf
  · split at hf <;> cases hf
  · split at hf
    · -- the least exponent, for which no place is implicit
      rename_i hempty
      split at hf
      · cases hf
      · injection hf with _ hm hq
        have hleast : q = leastExponent := by
          rw [← hq, hempty]
          rfl
        exact ⟨by omega, Int.le_of_eq hleast.symm, .inr hleast⟩
    · rename_i hempty
      have hpos : (@unpackExponent Format.binary64 f.toBits.toBitVec).toNat ≠ 0 :=
        fun hzero => hempty (BitVec.eq_of_toNat_eq hzero)
      injection hf with _ hm hq
      rw [toNat_implicit] at hm
      refine ⟨by omega, ?_, .inl (by omega)⟩
      rw [← hq, leastExponent]
      omega

theorem unpackSign_packComponents (s : Sign) (e : BitVec 11) (m : BitVec 52) :
    unpackSign (packComponents Format.binary64 s e m) = s.toBitVec := by
  apply BitVec.eq_of_getLsbD_eq
  intro i hi
  obtain rfl : i = 0 := by omega
  calc (unpackSign (packComponents Format.binary64 s e m)).getLsbD 0
      = (s.toBitVec ++ e ++ m).getLsbD 63 := by simp only [unpackSign, packComponents]; simp; rfl
    _ = s.toBitVec.getLsbD 0 := by rw [BitVec.getLsbD_append, BitVec.getLsbD_append]; rfl

theorem ofBitVec_toBitVec (s : Sign) : Sign.ofBitVec s.toBitVec = s := by
  cases s <;> rfl

/-- a float with all its binary places is read back from its bits -/
theorem unpack_pack {s : Sign} {m : Nat} {q : Int} (h : 0 < m) (hlow : 2 ^ 52 ≤ m) (hhigh : m < 2 ^ 53)
    (hq : -1074 ≤ q) (hq' : q ≤ 971) : (Float.Model.pack (.finite s m q h)).unpack = .finite s m q h := by
  have hlog : m.log2 + 1 = Format.binary64.mantissaBits := by
    have hle := (Nat.le_log2 (Nat.ne_of_gt h)).mpr hlow
    have hlt := (Nat.log2_lt (Nat.ne_of_gt h)).mpr hhigh
    simp only [Format.mantissaBits]
    omega
  obtain ⟨b, hb, hbq⟩ : ∃ b : Nat, (q + Format.binary64.exponentBias + (52 : Nat)).toNat = b ∧ (b : Int) = q + 1075 := by
    refine ⟨_, rfl, ?_⟩
    simp only [Format.exponentBias]
    omega
  have hbits : (BitVec.ofNat 11 b).toNat = b := by
    rw [BitVec.toNat_ofNat, Nat.mod_eq_of_lt (by omega)]
  have hfull : BitVec.ofNat 11 b ≠ -1#11 := by
    intro heq
    have := congrArg BitVec.toNat heq
    rw [hbits] at this
    simp at this
    omega
  have hempty : BitVec.ofNat 11 b ≠ 0#11 := by
    intro heq
    have := congrArg BitVec.toNat heq
    rw [hbits] at this
    simp at this
    omega
  have hm : (1#1 ++ BitVec.ofNat 52 m).toNat = m := by
    rw [toNat_implicit, BitVec.toNat_ofNat]
    omega
  have hpack : UnpackedFloat.pack Format.binary64 (.finite s m q h) =
      packComponents Format.binary64 s (BitVec.ofNat 11 b) (BitVec.ofNat 52 m) := by
    simp only [UnpackedFloat.pack, hb, hlog, if_true]
    rw [if_neg (by omega)]
  unfold Float.Model.unpack Float.Model.pack
  simp only [hpack, UnpackedFloat.unpack, unpackExponent_packComponents,
    unpackMantissa_packComponents, unpackSign_packComponents, ofBitVec_toBitVec, hfull, hempty, if_false, hbits, hm]
  congr 1
  simp only [Format.exponentBias]
  omega

/-! ## Rounding integers -/

theorem mantissa_shiftRight (em : ExtendedMantissa) (k : Nat) : (em >>> k).mantissa = em.mantissa / 2 ^ k := by
  change (Nat.repeat ExtendedMantissa.shiftRightOne k em).mantissa = _
  induction k with
  | zero => simp [Nat.repeat]
  | succ k ih =>
    calc (Nat.repeat ExtendedMantissa.shiftRightOne (k + 1) em).mantissa
        = (Nat.repeat ExtendedMantissa.shiftRightOne k em).mantissa / 2 := rfl
      _ = em.mantissa / 2 ^ k / 2 := by rw [ih]
      _ = em.mantissa / 2 ^ (k + 1) := by rw [Nat.div_div_eq_div_mul, Nat.pow_succ]

theorem roundedMantissa_mem (em : ExtendedMantissa) :
    em.mantissa ≤ em.roundedMantissa ∧ em.roundedMantissa ≤ em.mantissa + 1 := by
  rcases em with ⟨m, r, s⟩
  cases r <;> cases s <;>
    simp only [ExtendedMantissa.roundedMantissa, ExtendedMantissa.accuracy, Accuracy.roundToNearestEven] <;> omega

theorem log2_eq {m k : Nat} (hlow : 2 ^ k ≤ m) (hhigh : m < 2 ^ (k + 1)) : m.log2 = k := by
  have hne : m ≠ 0 := by
    have := Nat.two_pow_pos k
    omega
  have hle := (Nat.le_log2 hne).mpr hlow
  have hlt := (Nat.log2_lt hne).mpr hhigh
  omega

theorem targetExponent_eq {m : Nat} {q : Int} (hq : -1074 ≤ q + m.log2 - 52) :
    Format.binary64.targetExponent (totalExponent m q) = q + m.log2 - 52 := by
  simp only [Format.targetExponent, totalExponent, Format.mantissaBits, Format.minExponent]
  omega

/-- a canonical mantissa stays as it is -/
theorem shiftToTarget_of_canonical {m : Nat} {q : Int} (h : Canonical m q) (hm : 0 < m) :
    shiftToTargetExponent Format.binary64 m q .exact = (⟨m, false, false⟩, q) := by
  have hlog : m.log2 ≤ 52 := Nat.le_of_lt_succ ((Nat.log2_lt (Nat.ne_of_gt hm)).mpr h.mantissa)
  have hshift : (Format.binary64.targetExponent (totalExponent m q) - q).toNat = 0 := by
    have hleast := h.least
    simp only [Format.targetExponent, totalExponent, Format.mantissaBits, Format.minExponent]
    simp only [leastExponent] at hleast
    omega
  simp only [shiftToTargetExponent, shiftToExponent, hshift]
  simp [HShiftRight.hShiftRight, Nat.repeat, ExtendedMantissa.ofMantissaAndAccuracy]

/-- a mantissa with all its binary places stays as it is -/
theorem shiftToTarget_of_full {m : Nat} {q : Int} (hlow : 2 ^ 52 ≤ m) (hhigh : m < 2 ^ 53) (hq : -1074 ≤ q) :
    shiftToTargetExponent Format.binary64 m q .exact = (⟨m, false, false⟩, q) :=
  shiftToTarget_of_canonical ⟨hhigh, hq, .inl hlow⟩ (Nat.lt_of_lt_of_le (Nat.two_pow_pos 52) hlow)

/-- a mantissa that rounding has carried into one more binary place loses the last one, which is zero -/
theorem shiftToTarget_of_carry {q : Int} (hq : -1074 ≤ q) :
    shiftToTargetExponent Format.binary64 (2 ^ 53) q .exact = (⟨2 ^ 52, false, false⟩, q + 1) := by
  have htarget := targetExponent_eq (m := 2 ^ 53) (q := q) (by rw [Nat.log2_two_pow]; omega)
  rw [Nat.log2_two_pow] at htarget
  have hshift : (q + ((53 : Nat) : Int) - 52 - q).toNat = 1 := by omega
  simp only [shiftToTargetExponent, htarget, shiftToExponent, hshift]
  rfl

/-- rounding shifts twice: to the binary places that floats have, and once more after a carry -/
theorem roundWithAccuracy_eq (s : Sign) {n : Nat} {accuracy : Accuracy} {q first last : Int} {em em' : ExtendedMantissa}
    (hfirst : shiftToTargetExponent Format.binary64 n q accuracy = (em, first))
    (hlast : shiftToTargetExponent Format.binary64 em.roundedMantissa first .exact = (em', last))
    (h : 0 < em'.mantissa) : roundWithAccuracy Format.binary64 s n q accuracy = .finite s em'.mantissa last h := by
  simp only [roundWithAccuracy, hfirst, hlast]
  rw [dif_neg (Nat.ne_of_gt h)]

/-- an integer that has at most 53 binary places is rounded to itself -/
theorem round_short (s : Sign) {n : Nat} (hn : 0 < n) (hlog : n.log2 ≤ 52) :
    ∃ h, UnpackedFloat.round Format.binary64 s n 0 = .finite s (n * 2 ^ (52 - n.log2)) ((n.log2 : Int) - 52) h ∧
      2 ^ 52 ≤ n * 2 ^ (52 - n.log2) ∧ n * 2 ^ (52 - n.log2) < 2 ^ 53 := by
  have htarget := targetExponent_eq (m := n) (q := 0) (by omega)
  have hshift : (0 - (0 + (n.log2 : Int) - 52)).toNat = 52 - n.log2 := by omega
  have hq : (0 : Int) - ((52 - n.log2 : Nat) : Int) = (n.log2 : Int) - 52 := by omega
  have hlow : 2 ^ 52 ≤ n * 2 ^ (52 - n.log2) := by
    calc 2 ^ 52 = 2 ^ n.log2 * 2 ^ (52 - n.log2) := by rw [← Nat.pow_add]; congr 1; omega
      _ ≤ n * 2 ^ (52 - n.log2) := Nat.mul_le_mul_right _ (Nat.log2_self_le (Nat.ne_of_gt hn))
  have hhigh : n * 2 ^ (52 - n.log2) < 2 ^ 53 := by
    calc n * 2 ^ (52 - n.log2) < 2 ^ (n.log2 + 1) * 2 ^ (52 - n.log2) :=
          Nat.mul_lt_mul_of_pos_right Nat.lt_log2_self (Nat.two_pow_pos _)
      _ = 2 ^ 53 := by rw [← Nat.pow_add]; congr 1; omega
  have hfull := shiftToTarget_of_full hlow hhigh (q := (n.log2 : Int) - 52) (by omega)
  refine ⟨Nat.lt_of_lt_of_le (Nat.two_pow_pos 52) hlow, ?_, hlow, hhigh⟩
  simp only [UnpackedFloat.round, htarget, decreaseExponent, hshift, Nat.shiftLeft_eq, hq]
  exact roundWithAccuracy_eq s hfull hfull _

/-- an integer without its last `k` binary places, rounded by what these are -/
def roundedOff (n k : Nat) : Nat := (ExtendedMantissa.ofMantissaAndAccuracy n .exact >>> k).roundedMantissa

/-- a longer integer is rounded to a multiple of a power of two -/
theorem round_long (s : Sign) {n k : Nat} (hn : 0 < n) (hlog : n.log2 = 52 + k) (hk : k ≤ 11) :
    ∃ (m q : Nat) (h : 0 < m), UnpackedFloat.round Format.binary64 s n 0 = .finite s m q h ∧
      2 ^ 52 ≤ m ∧ m < 2 ^ 53 ∧ q ≤ 12 ∧ m * 2 ^ q = roundedOff n k * 2 ^ k ∧ (m = roundedOff n k ∨ m = 2 ^ 52) := by
  have htarget := targetExponent_eq (m := n) (q := 0) (by omega)
  have hdecrease : (0 - (0 + (n.log2 : Int) - 52)).toNat = 0 := by omega
  have hshift : (0 + (n.log2 : Int) - 52 - 0).toNat = k := by omega
  have hfirst : shiftToTargetExponent Format.binary64 n 0 .exact =
      (ExtendedMantissa.ofMantissaAndAccuracy n .exact >>> k, (k : Int)) := by
    simp only [shiftToTargetExponent, htarget, shiftToExponent, hshift]
    rw [Int.zero_add]
  have hround : UnpackedFloat.round Format.binary64 s n 0 = roundWithAccuracy Format.binary64 s n 0 .exact := by
    simp only [UnpackedFloat.round, htarget, decreaseExponent, hdecrease, Nat.shiftLeft_zero]
    rfl
  -- what is left after the last `k` binary places are cut off has 53 of them, and rounding adds one at most
  have hlow : 2 ^ 52 ≤ n / 2 ^ k := by
    rw [Nat.le_div_iff_mul_le (Nat.two_pow_pos k), ← Nat.pow_add, ← hlog]
    exact Nat.log2_self_le (Nat.ne_of_gt hn)
  have hhigh : n / 2 ^ k < 2 ^ 53 := by
    have hself : n < 2 ^ (n.log2 + 1) := Nat.lt_log2_self
    rw [Nat.div_lt_iff_lt_mul (Nat.two_pow_pos k), ← Nat.pow_add]
    rwa [hlog, show 52 + k + 1 = 53 + k by omega] at hself
  have hmem := roundedMantissa_mem (ExtendedMantissa.ofMantissaAndAccuracy n .exact >>> k)
  rw [mantissa_shiftRight, show (ExtendedMantissa.ofMantissaAndAccuracy n .exact).mantissa = n from rfl] at hmem
  change n / 2 ^ k ≤ roundedOff n k ∧ roundedOff n k ≤ n / 2 ^ k + 1 at hmem
  by_cases hcarry : roundedOff n k < 2 ^ 53
  · have hlast := shiftToTarget_of_full (q := k) (Nat.le_trans hlow hmem.1) hcarry (by omega)
    refine ⟨_, k, Nat.lt_of_lt_of_le (Nat.two_pow_pos 52) (Nat.le_trans hlow hmem.1), ?_, Nat.le_trans hlow hmem.1,
      hcarry, by omega, rfl, .inl rfl⟩
    rw [hround, roundWithAccuracy_eq s hfirst hlast]
  · have hsum : roundedOff n k = 2 ^ 53 := by omega
    have hlast := shiftToTarget_of_carry (q := k) (by omega)
    rw [← hsum] at hlast
    refine ⟨2 ^ 52, k + 1, Nat.two_pow_pos 52, ?_, Nat.le_refl _, by decide, by omega, ?_, .inr rfl⟩
    · rw [hround, roundWithAccuracy_eq s hfirst hlast (Nat.two_pow_pos 52)]
      rfl
    · rw [hsum]
      ring

/-- a float with a natural exponent is an integer -/
theorem integer?_of_whole {f : Float} {s : Sign} {m q : Nat} {h : 0 < m} (hf : f.toModel.unpack = .finite s m q h) :
    integer? f = some (signed (s == .negative) (m * 2 ^ q)) := by
  simp only [integer?, read, hf]
  rfl

theorem integer?_of_multiple {f : Float} {s : Sign} {n k : Nat} {h : 0 < n * 2 ^ k}
    (hf : f.toModel.unpack = .finite s (n * 2 ^ k) (-(k : Int)) h) :
    integer? f = some (signed (s == .negative) n) := by
  cases k with
  | zero => simpa using integer?_of_whole (q := 0) hf
  | succ k =>
    simp only [integer?, read, hf]
    rw [show -((k + 1 : Nat) : Int) = Int.negSucc k from rfl]
    simp [binaryPower]

/-- the float to which an integer is rounded -/
def packed (s : Sign) (n : Nat) : Float := Float.ofModel (Float.Model.pack (UnpackedFloat.round Format.binary64 s n 0))

theorem integer?_packed_short (s : Sign) {n : Nat} (hn : 0 < n) (hlog : n.log2 ≤ 52) :
    integer? (packed s n) = some (signed (s == .negative) n) := by
  obtain ⟨h, hround, hlow, hhigh⟩ := round_short s hn hlog
  have hq : (n.log2 : Int) - 52 = -((52 - n.log2 : Nat) : Int) := by omega
  rw [packed, hround]
  refine integer?_of_multiple (s := s) (n := n) (k := 52 - n.log2) (h := h) ?_
  rw [unpack_pack h hlow hhigh (by omega) (by omega), hq]

theorem unpack_packed_long (s : Sign) {n k : Nat} (hn : 0 < n) (hlog : n.log2 = 52 + k) (hk : k ≤ 11) :
    ∃ (m q : Nat) (h : 0 < m), (packed s n).toModel.unpack = .finite s m q h ∧
      m * 2 ^ q = roundedOff n k * 2 ^ k ∧ (m = roundedOff n k ∨ m = 2 ^ 52) := by
  obtain ⟨m, q, h, hround, hlow, hhigh, hq, hvalue⟩ := round_long s hn hlog hk
  refine ⟨m, q, h, ?_, hvalue⟩
  rw [packed, hround]
  exact unpack_pack h hlow hhigh (by omega) (by omega)

theorem isIntegral_packed (s : Sign) {n : Nat} (hn : 0 < n) (hn' : n < 2 ^ 64) : isIntegral (packed s n) = true := by
  have hlog : n.log2 < 64 := (Nat.log2_lt (Nat.ne_of_gt hn)).mpr hn'
  by_cases hshort : n.log2 ≤ 52
  · rw [isIntegral, integer?_packed_short s hn hshort]
    rfl
  · obtain ⟨m, q, h, hunpack, -⟩ := unpack_packed_long s hn (k := n.log2 - 52) (by omega) (by omega)
    rw [isIntegral, integer?_of_whole hunpack]
    rfl

/-- the float nearest to an integer of 64 bits is an integer -/
theorem isIntegral_ofInt64 (n : Int64) : isIntegral (Float.ofModel (Float.Model.ofInt64 n)) = true := by
  have hlow := n.le_toInt
  have hhigh := n.toInt_lt
  simp only [Float.Model.ofInt64, UnpackedFloat.ofInt64, UnpackedFloat.ofInt, UnpackedFloat.normalize]
  split
  · rename_i hneg
    have hneg := Int.compare_eq_lt.mp hneg
    exact isIntegral_packed _ (by omega) (by omega)
  · rfl
  · rename_i hpos
    have hpos := Int.compare_eq_gt.mp hpos
    exact isIntegral_packed _ (by omega) (by omega)

/-! ## Order -/

/-- m · 2^q in units of the least float -/
def units (m : Nat) (q : Int) : Nat := m * 2 ^ (q - leastExponent).toNat

/-- of canonical mantissas and exponents, the exponents decide, and the mantissas when these are equal -/
theorem units_le {m m' : Nat} {q q' : Int} (h : Canonical m q) (h' : Canonical m' q')
    (hle : q < q' ∨ q = q' ∧ m ≤ m') : units m q ≤ units m' q' := by
  have hleast := h.least
  rcases hle with hlt | ⟨rfl, hle⟩
  · -- the greater exponent is not the least one, so its mantissa has all its binary places
    have hnormal : 2 ^ 52 ≤ m' := h'.normal.resolve_right (by omega)
    obtain ⟨d, hd⟩ : ∃ d, (q' - leastExponent).toNat = 1 + (q - leastExponent).toNat + d :=
      ⟨(q' - q - 1).toNat, by omega⟩
    calc units m q ≤ 2 ^ 53 * 2 ^ (q - leastExponent).toNat := Nat.mul_le_mul_right _ (Nat.le_of_lt h.mantissa)
      _ = 2 ^ 52 * 2 ^ (1 + (q - leastExponent).toNat) := by rw [Nat.pow_add]; ring
      _ ≤ 2 ^ 52 * 2 ^ (1 + (q - leastExponent).toNat + d) :=
          Nat.mul_le_mul_left _ (Nat.pow_le_pow_right (by omega) (Nat.le_add_right _ _))
      _ ≤ units m' q' := by
          rw [units, hd]
          exact Nat.mul_le_mul_right _ hnormal
  · exact Nat.mul_le_mul_right _ hle

theorem signed_mul (negative : Bool) (a c : Nat) : signed negative a * (c : Int) = signed negative (a * c) := by
  cases negative <;> simp [signed]

/-- the integer that a float is, in units of the least float -/
theorem integer?_units {f : Float} {i : Int} (h : integer? f = some i) {negative : Bool} {m : Nat} {q : Int}
    (hf : read f = .finite negative m q) (hq : leastExponent ≤ q) :
    i * (2 ^ (-leastExponent).toNat : Nat) = signed negative (units m q) := by
  have hleast : leastExponent ≤ 0 := by decide
  simp only [units]
  -- the power of two is never computed
  generalize leastExponent = least at hq hleast
  rw [integer?, hf] at h
  cases q with
  | ofNat q =>
    obtain rfl := Option.some.inj h
    have hpower : m * binaryPower q * 2 ^ (-least).toNat = m * 2 ^ (Int.ofNat q - least).toNat := by
      calc m * binaryPower q * 2 ^ (-least).toNat = m * (2 ^ q * 2 ^ (-least).toNat) := Nat.mul_assoc ..
        _ = m * 2 ^ (q + (-least).toNat) := by rw [Nat.pow_add]
        _ = m * 2 ^ (Int.ofNat q - least).toNat := by congr 2; simp only [Int.ofNat_eq_natCast]; omega
    rw [signed_mul, hpower]
  | negSucc q =>
    dsimp only at h
    split at h
    · rename_i hmod
      obtain rfl := Option.some.inj h
      have hmul : m / binaryPower (q + 1) * 2 ^ (q + 1) = m := Nat.div_mul_cancel (Nat.dvd_of_mod_eq_zero hmod)
      have hpower : m / binaryPower (q + 1) * 2 ^ (-least).toNat = m * 2 ^ (Int.negSucc q - least).toNat := by
        have hsplit : (-least).toNat = q + 1 + (Int.negSucc q - least).toNat := by omega
        rw [hsplit, Nat.pow_add, ← Nat.mul_assoc, hmul]
      rw [signed_mul, hpower]
    · cases h

/-- a float as its bits hold it, a zero or with a canonical mantissa and exponent -/
inductive Proper : UnpackedFloat → Prop where
  | zero (s : Sign) : Proper (.zero s)
  | finite (s : Sign) {m : Nat} {q : Int} (h : 0 < m) (hc : Canonical m q) : Proper (.finite s m q h)

/-- the value of a float in units of the least float -/
def weight : UnpackedFloat → Int
  | .finite s m q _ => signed (s == .negative) (units m q)
  | .zero _ | .infinity _ | .notANumber => 0

theorem le_of_then_ne_lt {m m' : Nat} {q q' : Int} (h : (compare q' q).then (compare m' m) ≠ .lt) :
    q < q' ∨ q = q' ∧ m ≤ m' := by
  rcases Int.lt_trichotomy q q' with hlt | rfl | hgt
  · exact .inl hlt
  · refine .inr ⟨rfl, Nat.le_of_not_lt fun hlt => h ?_⟩
    rw [Int.compare_eq_eq.mpr rfl, Nat.compare_eq_lt.mpr hlt]
    rfl
  · refine absurd ?_ h
    rw [Int.compare_eq_lt.mpr hgt]
    rfl

/-- floats are compared as their values -/
theorem weight_le {u v : UnpackedFloat} (hu : Proper u) (hv : Proper v) (h : v.compare u ≠ some .lt) :
    weight u ≤ weight v := by
  cases hu with
  | zero s =>
    cases hv with
    | zero s' => exact Int.le_refl 0
    | finite s' h' hc' =>
      cases s' with
      | negative => exact absurd rfl h
      | positive => exact Int.natCast_nonneg _
  | finite s hm hc =>
    cases hv with
    | zero s' =>
      cases s with
      | negative => exact Int.neg_nonpos_of_nonneg (Int.natCast_nonneg _)
      | positive => exact absurd rfl h
    | finite s' hm' hc' =>
      cases s <;> cases s'
      · refine Int.neg_le_neg (Int.ofNat_le.mpr (units_le hc' hc (le_of_then_ne_lt fun hlt => h ?_)))
        refine congrArg some ?_
        rw [Ordering.swap_then, Int.compare_swap, Nat.compare_swap]
        exact hlt
      · exact Int.le_trans (Int.neg_nonpos_of_nonneg (Int.natCast_nonneg _)) (Int.natCast_nonneg _)
      · exact absurd rfl h
      · refine Int.ofNat_le.mpr (units_le hc hc' (le_of_then_ne_lt fun hlt => h ?_))
        exact congrArg some hlt

theorem integer?_weight {f : Float} {i : Int} (h : integer? f = some i) :
    Proper f.toModel.unpack ∧ i * (2 ^ (-leastExponent).toNat : Nat) = weight f.toModel.unpack := by
  cases hf : f.toModel.unpack with
  | notANumber => simp [integer?, read, hf] at h
  | infinity s => simp [integer?, read, hf] at h
  | zero s =>
    have hread : read f = .finite (s == .negative) 0 0 := by rw [read, hf]
    rw [integer?, hread] at h
    have hi : i = 0 := by
      rw [← Option.some.inj h]
      cases s <;> rfl
    rw [hi, Int.zero_mul]
    exact ⟨.zero s, rfl⟩
  | finite s m q hm =>
    have hread : read f = .finite (s == .negative) m q := by rw [read, hf]
    have hcanonical := canonical_unpack hf
    exact ⟨.finite s hm hcanonical, integer?_units h hread hcanonical.least⟩

theorem lt_iff (a b : Float) : a < b ↔ a.toModel.unpack.compare b.toModel.unpack = some .lt := by
  have hlt : a < b ↔ (a.toModel.unpack.compare b.toModel.unpack == some .lt) = true := decide_eq_true_iff
  rw [hlt, beq_iff_eq]

/-- floats that are integers are in the order of these integers -/
theorem le_of_not_lt {a b : Float} {i j : Int} (ha : integer? a = some i) (hb : integer? b = some j) (h : ¬b < a) :
    i ≤ j := by
  obtain ⟨hpa, hia⟩ := integer?_weight ha
  obtain ⟨hpb, hjb⟩ := integer?_weight hb
  have hweight : weight a.toModel.unpack ≤ weight b.toModel.unpack := weight_le hpa hpb fun hlt => h ((lt_iff b a).mpr hlt)
  have hscale : (0 : Int) < (2 ^ (-leastExponent).toNat : Nat) := Int.natCast_pos.mpr (Nat.two_pow_pos _)
  rw [← hia, ← hjb] at hweight
  exact Int.le_of_mul_le_mul_right hweight hscale

end Ouroboros.Decimal

namespace Ouroboros.Number

/-- the number counts as an integer only if it is one -/
def Sound (n : Number) : Prop := n.isInt = true → ∃ i, Decimal.integer? n.value = some i

theorem sound_make (value : Float) (wanted : Bool) : (make value wanted).Sound := by
  intro h
  have hintegral : Decimal.isIntegral value = true := by
    simp only [make, Bool.and_eq_true] at h
    exact h.2
  exact Option.isSome_iff_exists.mp hintegral

theorem sound_ofInt (n : Int) : (ofInt n).Sound :=
  fun _ => Option.isSome_iff_exists.mp (Decimal.isIntegral_ofInt64 (Int64.ofInt n))

theorem sound_ofFloat (value : Float) : (ofFloat value).Sound := by
  intro h
  cases h

end Ouroboros.Number
