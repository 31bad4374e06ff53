/-
Reading a decimal: `Float.ofScientific` gives the float to which the decimal is rounded (`ofScientific_eq`).

`RoundsTo m q v` says that the number `v` is rounded to m · 2^q: it is as near to it as to its neighbours, and nearer unless
the mantissa is even. What a product or a quotient leaves to be rounded stands for the exact number in units of a power of
two, with enough binary places (`Approximates`). These are cut off down to the places that floats have. Then the mantissa is
the nearest integer (`RoundsTo.isNearestMultiple`), except for numbers just below the least float of a binary order, where
rounding carries into one place more (`RoundsTo.isNearestMultiple_carry`). So what is rounded is the float
(`Approximates.round`).
-/
import Ouroboros.Proofs.Packing

namespace Ouroboros.Decimal

open Float.Model Float.Model.UnpackedFloat

/-! ## What is left to be rounded -/

/-- the mantissa and the accuracy stand for the number in units of 2^e, with all the binary places that a float has -/
structure Approximates (m : Nat) (e : Int) (accuracy : Accuracy) (v : ℚ) : Prop where
  places : 2 ^ 52 ≤ m ∨ e ≤ leastExponent
  value : ∃ n u : Nat, v = n / u * 2 ^ e ∧ Represents (ExtendedMantissa.ofMantissaAndAccuracy m accuracy) n u

/-- the exponent to which a mantissa is shifted -/
theorem targetExponent_max (m : Nat) (q : Int) :
    Format.binary64.targetExponent (totalExponent m q) = max (m.log2 + q - 52) leastExponent := by
  simp only [Format.targetExponent, totalExponent, Format.mantissaBits, Format.minExponent, leastExponent]
  omega

section Approximates

variable {m : Nat} {e : Int} {accuracy : Accuracy} {v : ℚ}

theorem mantissa_ofMantissaAndAccuracy (m : Nat) (accuracy : Accuracy) :
    (ExtendedMantissa.ofMantissaAndAccuracy m accuracy).mantissa = m := by
  cases accuracy with
  | exact => rfl
  | inexact o => cases o <;> rfl

theorem Represents.bounds {em : ExtendedMantissa} {n u : Nat} (h : Represents em n u) :
    0 < u ∧ em.mantissa * u ≤ n ∧ n < (em.mantissa + 1) * u := by
  obtain ⟨r, hr, hn, -⟩ := h
  rw [Nat.succ_mul]
  omega

theorem Approximates.bounds (h : Approximates m e accuracy v) : m * (2 : ℚ) ^ e ≤ v ∧ v < (m + 1) * 2 ^ e := by
  obtain ⟨n, u, rfl, hrep⟩ := h.value
  obtain ⟨hu, hlow, hhigh⟩ := hrep.bounds
  rw [mantissa_ofMantissaAndAccuracy] at hlow hhigh
  have hu' : (0 : ℚ) < u := by exact_mod_cast hu
  have hpower : (0 : ℚ) < 2 ^ e := zpow_pos two_pos e
  refine ⟨mul_le_mul_of_nonneg_right ?_ hpower.le, mul_lt_mul_of_pos_right ?_ hpower⟩
  · rw [le_div_iff₀ hu']
    exact_mod_cast hlow
  · rw [div_lt_iff₀ hu']
    exact_mod_cast hhigh

/-- numbers below 2^(t+53) are shifted to the exponent `t` at most -/
theorem Approximates.target_le (h : Approximates m e accuracy v) {t : Int} (ht : leastExponent ≤ t)
    (hv : v < 2 ^ (t + 53)) : Format.binary64.targetExponent (totalExponent m e) ≤ t := by
  rw [targetExponent_max]
  refine max_le ?_ ht
  rcases Nat.eq_zero_or_pos m with rfl | hm
  · rcases h.places with hplaces | hplaces
    · simp at hplaces
    · simp only [Nat.log2_zero]
      omega
  · have hself : ((2 ^ m.log2 : Nat) : ℚ) ≤ m := by exact_mod_cast Nat.log2_self_le (Nat.ne_of_gt hm)
    have hpower : (2 : ℚ) ^ (m.log2 + e : Int) < 2 ^ (t + 53) := by
      calc (2 : ℚ) ^ (m.log2 + e : Int) = (2 ^ m.log2 : Nat) * 2 ^ e := by
            rw [zpow_add₀ two_ne_zero, zpow_natCast]
            push_cast
            rfl
        _ ≤ m * 2 ^ e := mul_le_mul_of_nonneg_right hself (zpow_pos two_pos e).le
        _ ≤ v := h.bounds.1
        _ < 2 ^ (t + 53) := hv
    have hlt := (zpow_lt_zpow_iff_right₀ one_lt_two).mp hpower
    omega

/-- numbers from 2^(t+52) on are shifted to the exponent `t` at least -/
theorem Approximates.le_target (h : Approximates m e accuracy v) {t : Int} (he : e ≤ t) (hv : 2 ^ (t + 52) ≤ v) :
    t ≤ Format.binary64.targetExponent (totalExponent m e) := by
  rw [targetExponent_max]
  refine le_max_of_le_left ?_
  obtain ⟨k, hk⟩ := Int.eq_ofNat_of_zero_le (show 0 ≤ t + 52 - e by omega)
  have hpower : (2 ^ k : ℚ) < m + 1 := by
    have hlt := hv.trans_lt h.bounds.2
    rw [show t + 52 = k + e by omega, zpow_add₀ two_ne_zero, zpow_natCast] at hlt
    exact lt_of_mul_lt_mul_right hlt (zpow_pos two_pos e).le
  have hle : 2 ^ k ≤ m := Nat.lt_succ_iff.mp (by exact_mod_cast hpower)
  have hm : m ≠ 0 := Nat.ne_of_gt (Nat.lt_of_lt_of_le (Nat.two_pow_pos k) hle)
  have hlog := (Nat.le_log2 hm).mpr hle
  omega

theorem Approximates.start_le_target (h : Approximates m e accuracy v) :
    e ≤ Format.binary64.targetExponent (totalExponent m e) := by
  rw [targetExponent_max]
  rcases h.places with hm | he
  · have hlog := (Nat.le_log2 (by omega : m ≠ 0)).mpr hm
    exact le_max_of_le_left (by omega)
  · exact le_max_of_le_right he

/-- the first shift leaves the number in units of the exponent it is shifted to -/
theorem Approximates.shifted (h : Approximates m e accuracy v) {t : Int}
    (ht : Format.binary64.targetExponent (totalExponent m e) = t) :
    ∃ em n u, shiftToTargetExponent Format.binary64 m e accuracy = (em, t) ∧ v = (n : Nat) / (u : Nat) * 2 ^ t ∧
      Represents em n u := by
  obtain ⟨n, u, hv, hrep⟩ := h.value
  have hle := h.start_le_target
  rw [ht] at hle
  obtain ⟨k, hk⟩ := Int.eq_ofNat_of_zero_le (show 0 ≤ t - e by omega)
  refine ⟨_, n, u * 2 ^ k, ?_, ?_, hrep.shiftRight k⟩
  · simp only [shiftToTargetExponent, shiftToExponent, ht, hk, Int.toNat_natCast]
    rw [show e + (k : Int) = t by omega]
  · rw [hv, show t = k + e by omega, zpow_add₀ two_ne_zero, zpow_natCast]
    push_cast
    field_simp

end Approximates

/-! ## The numbers that are rounded to a float -/

/-- the least number that is rounded to m · 2^q, in quarters of the last binary place -/
def lowEnd (m : Nat) (q : Int) : Nat := if m = 2 ^ 52 ∧ leastExponent < q then 4 * m - 1 else 4 * m - 2

/-- the number is as near to m · 2^q as to its neighbours, and nearer to it unless m is even -/
structure RoundsTo (m : Nat) (q : Int) (v : ℚ) : Prop where
  low : lowEnd m q * 2 ^ (q - 2) ≤ v
  high : v ≤ (4 * m + 2 : Nat) * 2 ^ (q - 2)
  even : v = lowEnd m q * 2 ^ (q - 2) ∨ v = (4 * m + 2 : Nat) * 2 ^ (q - 2) → m % 2 = 0

theorem lowEnd_cases (m : Nat) (q : Int) :
    lowEnd m q = 4 * m - 2 ∨ lowEnd m q = 4 * m - 1 ∧ m = 2 ^ 52 := by
  unfold lowEnd
  split
  · rename_i h
    exact .inr ⟨rfl, h.1⟩
  · exact .inl rfl

/-- a power of two in quarters of a last binary place -/
theorem zpow_quarters (q : Int) (k : Nat) : (2 : ℚ) ^ (q + k) = (2 ^ (k + 2) : Nat) * 2 ^ (q - 2) := by
  rw [Nat.cast_pow, Nat.cast_ofNat, ← zpow_natCast, ← zpow_add₀ two_ne_zero]
  congr 1
  push_cast
  ring

/-- a float in quarters of its last binary place -/
theorem value_quarters (m : Nat) (q : Int) : (m : ℚ) * 2 ^ q = (4 * m : Nat) * 2 ^ (q - 2) := by
  have hpower := zpow_quarters q 0
  rw [Int.natCast_zero, Int.add_zero] at hpower
  rw [hpower]
  push_cast
  ring

section Grid

variable {a n u : Nat} {r : Int}

theorem grid_le (hu : 0 < u) : (a : ℚ) * 2 ^ r ≤ n / u * 2 ^ r ↔ a * u ≤ n := by
  rw [mul_le_mul_iff_left₀ (zpow_pos two_pos r), le_div_iff₀ (by exact_mod_cast hu)]
  exact_mod_cast Iff.rfl

theorem grid_ge (hu : 0 < u) : (n : ℚ) / u * 2 ^ r ≤ a * 2 ^ r ↔ n ≤ a * u := by
  rw [mul_le_mul_iff_left₀ (zpow_pos two_pos r), div_le_iff₀ (by exact_mod_cast hu)]
  exact_mod_cast Iff.rfl

end Grid

namespace RoundsTo

variable {m : Nat} {q : Int} {v : ℚ}

/-- what a number that is rounded to m · 2^q says about the number of quarters it is -/
theorem quarters {n u : Nat} (h : RoundsTo m q (n / u * 2 ^ (q - 2))) (hu : 0 < u) :
    lowEnd m q * u ≤ n ∧ n ≤ (4 * m + 2) * u ∧ (n = lowEnd m q * u ∨ n = (4 * m + 2) * u → m % 2 = 0) := by
  have hlow := (grid_le hu).mp h.low
  have hhigh := (grid_ge hu).mp h.high
  refine ⟨hlow, hhigh, fun hends => h.even ?_⟩
  rcases hends with hend | hend
  · exact .inl (le_antisymm ((grid_ge hu).mpr hend.le) h.low)
  · exact .inr (le_antisymm h.high ((grid_le hu).mpr hend.ge))

/-- the numbers that are rounded to a float are no smaller than half of the least float -/
theorem tiny (hc : Canonical m q) (hm : 0 < m) (h : RoundsTo m q v) : 2 ^ (leastExponent - 1) ≤ v := by
  have hend : 2 ≤ lowEnd m q := by
    rcases lowEnd_cases m q with hend | ⟨hend, -⟩ <;> omega
  calc (2 : ℚ) ^ (leastExponent - 1) ≤ 2 ^ (q - 1) := zpow_le_zpow_right₀ one_le_two (by have := hc.least; omega)
    _ = 2 * 2 ^ (q - 2) := by rw [← zpow_one_add₀ two_ne_zero]; congr 1; ring
    _ ≤ lowEnd m q * 2 ^ (q - 2) := mul_le_mul_of_nonneg_right (by exact_mod_cast hend) (zpow_pos two_pos _).le
    _ ≤ v := h.low

/-- they have no more binary places than a float has -/
theorem lt_zpow (hc : Canonical m q) (h : RoundsTo m q v) : v < 2 ^ (q + 53) := by
  have hmantissa := hc.mantissa
  calc v ≤ (4 * m + 2 : Nat) * 2 ^ (q - 2) := h.high
    _ < (2 ^ 55 : Nat) * 2 ^ (q - 2) :=
        mul_lt_mul_of_pos_right (by exact_mod_cast (by omega : 4 * m + 2 < 2 ^ 55)) (zpow_pos two_pos _)
    _ = 2 ^ (q + 53) := (zpow_quarters q 53).symm

/-- in units of the float's last binary place, the mantissa is the nearest integer -/
theorem isNearestMultiple {a u : Nat} (h : RoundsTo m q (a / u * 2 ^ q)) (hm : 0 < m) (hu : 0 < u) :
    IsNearestMultiple m u a := by
  have hquarters : (a : ℚ) / u * 2 ^ q = (4 * a : Nat) / u * 2 ^ (q - 2) := by
    rw [zpow_sub₀ two_ne_zero]
    push_cast
    field_simp
  rw [hquarters] at h
  obtain ⟨hlow, hhigh, heven⟩ := h.quarters hu
  have hsub : (4 * m - 2) * u = 4 * (m * u) - 2 * u := by rw [Nat.sub_mul, Nat.mul_assoc]
  have hsub' : (4 * m - 1) * u = 4 * (m * u) - u := by rw [Nat.sub_mul, Nat.mul_assoc, Nat.one_mul]
  have hadd : (4 * m + 2) * u = 4 * (m * u) + 2 * u := by rw [Nat.add_mul, Nat.mul_assoc]
  have hpos : u ≤ m * u := Nat.le_mul_of_pos_left u hm
  rcases lowEnd_cases m q with hend | ⟨hend, hsmall⟩
  · rw [hend] at hlow heven
    exact ⟨by omega, by omega, by omega⟩
  · rw [hend] at hlow heven
    exact ⟨by omega, by omega, by omega⟩

/-- a number of a lower binary order than its float is just below it, and the float is the least one of its order -/
theorem of_lt_zpow (hc : Canonical m q) (hleast : q ≠ leastExponent) (h : RoundsTo m q v) (hlt : v < 2 ^ (q + 52)) :
    lowEnd m q = 4 * m - 1 ∧ m = 2 ^ 52 := by
  have hnormal := hc.normal.resolve_right hleast
  have hbelow : lowEnd m q < 2 ^ 54 := by
    have hend := h.low.trans_lt hlt
    rw [show (q + 52 : Int) = q + (52 : Nat) by rfl, zpow_quarters] at hend
    exact_mod_cast lt_of_mul_lt_mul_right hend (zpow_pos two_pos _).le
  by_cases hfirst : m = 2 ^ 52
  · exact ⟨if_pos ⟨hfirst, lt_of_le_of_ne hc.least (Ne.symm hleast)⟩, hfirst⟩
  · rcases lowEnd_cases m q with hend | ⟨hend, -⟩ <;> omega

/-- in units of the place below the float's last one, the nearest integer has one binary place too many -/
theorem isNearestMultiple_carry {a u : Nat} (h : RoundsTo (2 ^ 52) q (a / u * 2 ^ (q - 1))) (hu : 0 < u)
    (hend : lowEnd (2 ^ 52) q = 4 * 2 ^ 52 - 1) (hlt : (a : ℚ) / u * 2 ^ (q - 1) < 2 ^ (q + 52)) :
    IsNearestMultiple (2 ^ 53) u a := by
  have hquarters : (a : ℚ) / u * 2 ^ (q - 1) = (2 * a : Nat) / u * 2 ^ (q - 2) := by
    rw [show q - 1 = q - 2 + 1 by ring, zpow_add_one₀ two_ne_zero]
    push_cast
    field_simp
  rw [hquarters] at h hlt
  have habove := (h.quarters hu).1
  have hbelow : 2 * a < 2 ^ 54 * u := by
    rw [show (q + 52 : Int) = q + (52 : Nat) by rfl, zpow_quarters] at hlt
    by_contra hnot
    exact absurd ((grid_le hu).mpr (Nat.le_of_not_lt hnot)) (not_le_of_gt hlt)
  rw [hend] at habove
  exact ⟨by omega, by omega, by omega⟩

end RoundsTo

theorem IsNearestMultiple.unique {c d u n : Nat} (hu : 0 < u) (hc : IsNearestMultiple c u n)
    (hd : IsNearestMultiple d u n) : c = d := by
  obtain ⟨hlow, hhigh, heven⟩ := hc
  obtain ⟨hlow', hhigh', heven'⟩ := hd
  -- two of them that are not the same are next to each other, and `n` is halfway
  have hstep {a b : Nat} (h : a < b) : a * u + u ≤ b * u ∧ (a + 1 < b → a * u + 2 * u ≤ b * u) := by
    refine ⟨?_, fun h => ?_⟩
    · rw [← Nat.succ_mul]
      exact Nat.mul_le_mul_right u h
    · rw [← Nat.add_mul]
      exact Nat.mul_le_mul_right u h
  rcases Nat.lt_trichotomy c d with h | h | h
  · have := hstep h
    omega
  · exact h
  · have := hstep h
    omega

/-- **Rounding.** What stands for a number that is rounded to a float, is rounded to this float. -/
theorem Approximates.round {n m : Nat} {e q : Int} {accuracy : Accuracy} {v : ℚ} (h : Approximates n e accuracy v)
    (hc : Canonical m q) (hm : 0 < m) (hv : RoundsTo m q v) (s : Sign) :
    roundWithAccuracy Format.binary64 s n e accuracy = .finite s m q hm := by
  have hle := h.target_le hc.least (hv.lt_zpow hc)
  by_cases hbinary : 2 ^ (q + 52) ≤ v ∨ q = leastExponent
  · -- the number has the binary order of the float, or both have the least one
    have htarget : Format.binary64.targetExponent (totalExponent n e) = q := by
      refine le_antisymm hle ?_
      rcases hbinary with hlow | rfl
      · exact h.le_target (h.start_le_target.trans hle) hlow
      · rw [targetExponent_max]
        exact le_max_right _ _
    obtain ⟨em, a, u, hshift, rfl, hrep⟩ := h.shifted htarget
    have hu := hrep.bounds.1
    have hrounded := hrep.rounded.unique hu (hv.isNearestMultiple hm hu)
    have hlast := shiftToTarget_of_canonical hc hm
    rw [← hrounded] at hlast
    rw [roundWithAccuracy_eq s hshift hlast (hrounded ▸ hm)]
    simp only [hrounded]
  · -- the number is of a lower order, so rounding carries
    obtain ⟨hlow, hleast⟩ := not_or.mp hbinary
    rw [not_le] at hlow
    obtain ⟨hend, rfl⟩ := hv.of_lt_zpow hc hleast hlow
    have hlt : leastExponent < q := lt_of_le_of_ne hc.least (Ne.symm hleast)
    have htarget : Format.binary64.targetExponent (totalExponent n e) = q - 1 := by
      have hle' := h.target_le (t := q - 1) (by omega) (by rwa [show q - 1 + 53 = q + 52 by ring])
      refine le_antisymm hle' (h.le_target (h.start_le_target.trans hle') ?_)
      calc (2 : ℚ) ^ (q - 1 + 52) = (2 ^ 53 : Nat) * 2 ^ (q - 2) := by
            rw [show q - 1 + 52 = q + (51 : Nat) by push_cast; ring]
            exact zpow_quarters q 51
        _ ≤ lowEnd (2 ^ 52) q * 2 ^ (q - 2) :=
            mul_le_mul_of_nonneg_right (by rw [hend]; norm_num) (zpow_pos two_pos _).le
        _ ≤ v := hv.low
    obtain ⟨em, a, u, hshift, rfl, hrep⟩ := h.shifted htarget
    have hu := hrep.bounds.1
    have hrounded := hrep.rounded.unique hu (hv.isNearestMultiple_carry hu hend hlow)
    have hlast := shiftToTarget_of_carry (q := q - 1) (by simp only [leastExponent] at hlt; omega)
    rw [← hrounded] at hlast
    rw [roundWithAccuracy_eq s hshift hlast (Nat.two_pow_pos 52)]
    simp only [Int.sub_add_cancel]

/-! ## Quotients -/

theorem represents_fraction (n : Nat) {u : Nat} (hu : 0 < u) :
    Represents (ExtendedMantissa.ofMantissaAndAccuracy (n / u) (accuracyOfFraction (n % u) u)) n u := by
  have hn : n = n / u * u + n % u := by rw [Nat.mul_comm, Nat.div_add_mod]
  rw [accuracyOfFraction]
  by_cases hzero : n % u = 0
  · rw [if_pos hzero]
    exact ⟨n % u, Nat.mod_lt n hu, hn, hzero⟩
  · rw [if_neg hzero]
    cases hcompare : compare (2 * (n % u)) u with
    | lt => exact ⟨n % u, Nat.mod_lt n hu, hn, Nat.pos_of_ne_zero hzero, Nat.compare_eq_lt.mp hcompare⟩
    | eq => exact ⟨n % u, Nat.mod_lt n hu, hn, Nat.compare_eq_eq.mp hcompare⟩
    | gt => exact ⟨n % u, Nat.mod_lt n hu, hn, Nat.compare_eq_gt.mp hcompare⟩

/-- a quotient is cut off after enough binary places -/
theorem approximates_divCore {m₁ m₂ : Nat} (e₁ e₂ : Int) (h₁ : 0 < m₁) (h₂ : 0 < m₂) :
    Approximates (divCore Format.binary64 m₁ e₁ m₂ e₂).1 (divCore Format.binary64 m₁ e₁ m₂ e₂).2.1
      (divCore Format.binary64 m₁ e₁ m₂ e₂).2.2 (m₁ * 2 ^ e₁ / (m₂ * 2 ^ e₂)) := by
  unfold divCore
  dsimp only
  have htarget : Format.binary64.targetExponent (totalExponent m₁ e₁ - totalExponent m₂ e₂) =
      max (m₁.log2 + e₁ - (m₂.log2 + e₂) - 53) leastExponent := by
    simp only [Format.targetExponent, totalExponent, Format.mantissaBits, Format.minExponent, leastExponent]
    omega
  rw [htarget]
  generalize ht : min (e₁ - e₂) (max (m₁.log2 + e₁ - (m₂.log2 + e₂) - 53) leastExponent) = t
  obtain ⟨k, hk⟩ := Int.eq_ofNat_of_zero_le (show 0 ≤ e₁ - e₂ - t by omega)
  rw [hk, Int.toNat_natCast, Nat.shiftLeft_eq]
  constructor
  · rcases le_or_gt t leastExponent with hleast | hleast
    · exact .inr hleast
    · left
      have hplaces : 53 + m₂.log2 ≤ m₁.log2 + k := by omega
      rw [Nat.le_div_iff_mul_le h₂]
      calc 2 ^ 52 * m₂ ≤ 2 ^ 52 * 2 ^ (m₂.log2 + 1) := Nat.mul_le_mul_left _ (Nat.le_of_lt Nat.lt_log2_self)
        _ = 2 ^ (53 + m₂.log2) := by rw [← Nat.pow_add]; congr 1; omega
        _ ≤ 2 ^ (m₁.log2 + k) := Nat.pow_le_pow_right (by omega) hplaces
        _ = 2 ^ m₁.log2 * 2 ^ k := Nat.pow_add ..
        _ ≤ m₁ * 2 ^ k := Nat.mul_le_mul_right _ (Nat.log2_self_le (Nat.ne_of_gt h₁))
  · refine ⟨m₁ * 2 ^ k, m₂, ?_, represents_fraction _ h₂⟩
    have hpower : (2 : ℚ) ^ e₁ = 2 ^ k * 2 ^ t * 2 ^ e₂ := by
      rw [← zpow_natCast, ← zpow_add₀ two_ne_zero, ← zpow_add₀ two_ne_zero]
      congr 1
      omega
    have hm₂ : (m₂ : ℚ) ≠ 0 := by exact_mod_cast Nat.ne_of_gt h₂
    rw [hpower]
    push_cast
    field_simp

/-- a quotient is rounded to the float to which the exact quotient is rounded -/
theorem div_eq {s₁ s₂ : Sign} {m₁ m₂ m : Nat} {e₁ e₂ q : Int} (h₁ : 0 < m₁) (h₂ : 0 < m₂) (hc : Canonical m q)
    (hm : 0 < m) (hv : RoundsTo m q (m₁ * 2 ^ e₁ / (m₂ * 2 ^ e₂))) :
    UnpackedFloat.div Format.binary64 (.finite s₁ m₁ e₁ h₁) (.finite s₂ m₂ e₂ h₂) = .finite (s₁ / s₂) m q hm :=
  (approximates_divCore e₁ e₂ h₁ h₂).round hc hm hv (s₁ / s₂)

/-! ## Reading a decimal -/

/-- an integer of at most 53 binary places, as a float -/
theorem unpack_toFloat {n : Nat} (hn : 0 < n) (hlt : n < 2 ^ 53) :
    ∃ m q h, n.toUInt64.toFloat.toModel.unpack = .finite .positive m q h ∧ (m : ℚ) * 2 ^ q = n := by
  have hsize : n.toUInt64.toNat = n := by
    rw [UInt64.toNat_ofNat']
    omega
  have hlog : n.log2 ≤ 52 := Nat.le_of_lt_succ ((Nat.log2_lt (Nat.ne_of_gt hn)).mpr hlt)
  obtain ⟨h, hround, hlow, hhigh⟩ := round_short .positive hn hlog
  have hfloat : n.toUInt64.toFloat.toModel = Float.Model.pack (UnpackedFloat.round Format.binary64 .positive n 0) := by
    simp only [UInt64.toFloat, Float.Model.ofUInt64, UnpackedFloat.ofUInt64, UnpackedFloat.ofNat, UnpackedFloat.ofInt,
      UnpackedFloat.normalize, hsize, Int.compare_eq_gt.mpr (Int.natCast_pos.mpr hn), Int.toNat_natCast]
  refine ⟨_, _, h, by rw [hfloat, hround]; exact unpack_pack h hlow hhigh (by omega) (by omega), ?_⟩
  obtain ⟨k, hk⟩ := Nat.exists_eq_add_of_le hlog
  rw [show 52 - n.log2 = k by omega, show (n.log2 : Int) - 52 = -(k : Int) by omega, zpow_neg, zpow_natCast]
  push_cast
  field_simp

/-- whether a float is the power of ten exactly -/
def isPowerOfTen (f : Float) (k : Nat) : Bool :=
  match read f with
  | .finite false m q => decide (0 < m ∧ m * 2 ^ q.toNat = 10 ^ k * 2 ^ (-q).toNat)
  | _ => false

theorem unpack_powerOfTen {f : Float} {k : Nat} (h : isPowerOfTen f k = true) :
    ∃ m q h, f.toModel.unpack = .finite .positive m q h ∧ (m : ℚ) * 2 ^ q = 10 ^ k := by
  unfold isPowerOfTen at h
  split at h
  · rename_i m q hread
    obtain ⟨hm, hvalue⟩ := of_decide_eq_true h
    refine ⟨m, q, hm, unpack_of_read_positive hread hm, ?_⟩
    have hvalue : (m : ℚ) * 2 ^ q.toNat = 10 ^ k * 2 ^ (-q).toNat := by exact_mod_cast hvalue
    have hq : (2 : ℚ) ^ q = 2 ^ q.toNat / 2 ^ (-q).toNat := by
      rw [← zpow_natCast, ← zpow_natCast, ← zpow_sub₀ two_ne_zero]
      congr 1
      omega
    rw [hq, ← mul_div_assoc, hvalue, mul_div_assoc, div_self (by positivity), mul_one]
  · cases h

theorem isPowerOfTen_table : ∀ k (h : k < Float.exactlyRepresentablePowersOfTen.size),
    isPowerOfTen Float.exactlyRepresentablePowersOfTen[k] k = true := by
  decide +kernel

/-- a decimal that is rounded to a float has no more places than its digits and the least float ask for -/
theorem places_le {m n k : Nat} {q : Int} (hc : Canonical m q) (hm : 0 < m) (hv : RoundsTo m q (n / 10 ^ k)) :
    k ≤ 1075 + n.log2 := by
  by_contra hnot
  have htiny := hv.tiny hc hm
  have hself : (n : ℚ) < 2 ^ (n.log2 + 1) := by exact_mod_cast Nat.lt_log2_self
  have hlt : (n : ℚ) / 10 ^ k < 2 ^ (leastExponent - 1) := by
    calc (n : ℚ) / 10 ^ k ≤ n / 2 ^ k := by
          gcongr
          norm_num
      _ < 2 ^ (n.log2 + 1) / 2 ^ k := by gcongr
      _ = 2 ^ ((n.log2 + 1 : Nat) - k : Int) := by rw [zpow_sub₀ two_ne_zero, zpow_natCast, zpow_natCast]
      _ ≤ 2 ^ (leastExponent - 1) := zpow_le_zpow_right₀ one_le_two (by rw [leastExponent]; push_cast; omega)
  exact absurd htiny (not_le_of_gt hlt)

/-- an integer with enough zeros behind it -/
theorem approximates_shiftLeft {n : Nat} (hn : 0 < n) :
    Approximates (n <<< Format.binary64.mantissaBits * 10 ^ (0 : Nat)) (-Format.binary64.mantissaBits + 0) .exact n := by
  have hbits : Format.binary64.mantissaBits = 53 := rfl
  rw [hbits, Nat.shiftLeft_eq, Nat.pow_zero, Nat.mul_one]
  refine ⟨.inl (by omega), n * 2 ^ 53, 1, ?_, represents_exact _⟩
  rw [Int.add_zero, zpow_neg, zpow_natCast]
  rw [Nat.cast_mul, Nat.cast_pow, Nat.cast_ofNat, Nat.cast_one, div_one, mul_assoc, mul_inv_cancel₀ (by positivity),
    mul_one]

/-- **Reading a decimal.** A decimal is read as the float to which its value is rounded. -/
theorem ofScientific_eq {f : Float} {m : Nat} {q : Int} (hf : read f = .finite false m q) (hm : 0 < m) {n k : Nat}
    (hv : RoundsTo m q (n / 10 ^ k)) : Float.ofScientific n true k = f := by
  have hunpack := unpack_of_read_positive hf hm
  have hc := canonical_unpack hunpack
  have hself : Float.ofModel (Float.Model.pack (.finite .positive m q hm)) = f :=
    ofModel_pack hunpack UnpackedFloat.noConfusion
  have hn : 0 < n := by
    rcases Nat.eq_zero_or_pos n with rfl | hn
    · have htiny := hv.tiny hc hm
      rw [Nat.cast_zero, zero_div] at htiny
      exact absurd htiny (not_le_of_gt (zpow_pos two_pos _))
    · exact hn
  have hdiv {m₁ m₂ : Nat} {e₁ e₂ : Int} (h₁ : 0 < m₁) (h₂ : 0 < m₂) (hn : (m₁ : ℚ) * 2 ^ e₁ = n)
      (hk : (m₂ : ℚ) * 2 ^ e₂ = 10 ^ k) :
      UnpackedFloat.div Format.binary64 (.finite .positive m₁ e₁ h₁) (.finite .positive m₂ e₂ h₂) =
        .finite .positive m q hm :=
    div_eq h₁ h₂ hc hm (by rwa [hn, hk])
  rw [Float.ofScientific]
  split
  · rename_i hshort
    obtain ⟨m₁, e₁, h₁, hunpack₁, hvalue₁⟩ := unpack_toFloat hn hshort.1
    obtain ⟨m₂, e₂, h₂, hunpack₂, hvalue₂⟩ := unpack_powerOfTen (isPowerOfTen_table k (by
      simp only [Float.exactlyRepresentablePowersOfTen, List.size_toArray, List.length_cons, List.length_nil]
      omega))
    change Float.ofModel (Float.Model.pack (UnpackedFloat.div Format.binary64 n.toUInt64.toFloat.toModel.unpack _)) = f
    rw [hunpack₁, hunpack₂, hdiv h₁ h₂ hvalue₁ hvalue₂, hself]
  · rename_i hlong
    have hplaces := places_le hc hm hv
    simp only [if_true, Float.Model.ofScientific]
    rw [Int.negOfNat_eq, Int.ofNat_eq_natCast, UnpackedFloat.ofScientific, dif_neg (Nat.ne_of_gt hn), if_neg, if_neg]
    · split
      · rename_i hk
        obtain rfl : k = 0 := by omega
        have hzero : (-((0 : Nat) : Int)).toNat = 0 := rfl
        rw [UnpackedFloat.mul, hzero, (approximates_shiftLeft hn).round hc hm (by simpa using hv)]
        exact hself
      · rename_i hk
        have hpower : ((10 ^ k : Nat) : ℚ) * 2 ^ (0 : Int) = 10 ^ k := by rw [zpow_zero, mul_one, Nat.cast_pow]; rfl
        have hk' : (-(-(k : Int))).toNat = k := by omega
        simp only [hk']
        rw [hdiv hn (Nat.pow_pos (by decide)) (by rw [zpow_zero, mul_one]) hpower, hself]
    · change ¬-(k : Int) < -(2 ^ 11 + n.log2)
      omega
    · change ¬-(k : Int) > 2 ^ 11
      omega

end Ouroboros.Decimal
