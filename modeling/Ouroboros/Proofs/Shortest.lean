/-
The shortest decimal of a float reads back as the float (`roundsTo_shortest`).

The points of a grid that the search takes are those that are rounded to the float (`Grid.holds_iff`). The step of the last
grid is so small against the value that the nearer of its two neighbours is always one of them
(`Grid.isSome_nearest?_of_fine`); an integer is itself a point of the grid of integers, so its shortest decimal is an
integer (`exponent_shortest`).

Whatever lies between a float and its shortest decimal is rounded to the float too. So both are on the same side of a
decimal, unless the float is the one nearest to the decimal (`shortest_lt_iff`).
-/
import Ouroboros.Proofs.Rounding

namespace Ouroboros.Decimal

/-! ## Digits -/

theorem digitCount_le {n k : Nat} (hk : 0 < k) : digitCount n ≤ k ↔ n < 10 ^ k :=
  Nat.length_toDigits_le_iff (by decide) hk

theorem digitCount_pos (n : Nat) : 0 < digitCount n := Nat.length_toDigits_pos

/-- a positive number lies between two powers of ten -/
theorem digitCount_bounds {n : Nat} (hn : 0 < n) : 10 ^ (digitCount n - 1) ≤ n ∧ n < 10 ^ digitCount n := by
  refine ⟨?_, (digitCount_le (digitCount_pos n)).mp (Nat.le_refl _)⟩
  rcases Nat.eq_or_lt_of_le (Nat.succ_le_of_lt (digitCount_pos n)) with hone | hmore
  · rw [← hone]
    exact hn
  · by_contra hnot
    have := (digitCount_le (by omega)).mpr (Nat.lt_of_not_le hnot)
    omega

/-- the power of ten below a quotient -/
theorem magnitude_low {num den : Nat} (hnum : 0 < num) (hden : 0 < den) :
    (10 : ℚ) ^ (magnitude num den - 1) ≤ num / den := by
  have hnum' : (0 : ℚ) < num := by exact_mod_cast hnum
  have hden' : (0 : ℚ) < den := by exact_mod_cast hden
  unfold magnitude
  split
  · rename_i hle
    have hpos : 0 < num / den := Nat.div_pos hle hden
    have hlow := (digitCount_bounds hpos).1
    have hcount := digitCount_pos (num / den)
    have hmul : 10 ^ (digitCount (num / den) - 1) * den ≤ num := (Nat.le_div_iff_mul_le hden).mp hlow
    rw [le_div_iff₀ hden', show (digitCount (num / den) : Int) - 1 = (digitCount (num / den) - 1 : Nat) by omega,
      zpow_natCast]
    exact_mod_cast hmul
  · rename_i hlt
    -- the quotient is below one, so its inverse, rounded up, is above one
    generalize hc : (den + num - 1) / num - 1 = c
    have hceil : den ≤ (den + num - 1) / num * num := by
      have hself := Nat.div_add_mod (den + num - 1) num
      have hmod := Nat.mod_lt (den + num - 1) hnum
      rw [Nat.mul_comm] at hself
      omega
    have hhigh : (den + num - 1) / num ≤ 10 ^ digitCount c := by
      have := (digitCount_le (digitCount_pos c)).mp (Nat.le_refl _)
      omega
    have hmul : den ≤ 10 ^ digitCount c * num := hceil.trans (Nat.mul_le_mul_right _ hhigh)
    rw [show (1 : Int) - digitCount c - 1 = -(digitCount c : Int) by ring, zpow_neg, zpow_natCast,
      inv_le_iff_one_le_mul₀ (by positivity), div_mul_eq_mul_div, one_le_div hden', mul_comm]
    exact_mod_cast hmul

/-! ## Intervals and grids -/

/-- the ends of the rounding interval and the value in it, as rational numbers -/
structure Interval.Around (i : Interval) (m : Nat) (q : Int) : Prop where
  den : 0 < i.den
  low : (i.low : ℚ) = lowEnd m q * 2 ^ (q - 2) * i.den
  value : (i.value : ℚ) = m * 2 ^ q * i.den
  high : (i.high : ℚ) = (4 * m + 2 : Nat) * 2 ^ (q - 2) * i.den
  closed : i.closed = decide (m % 2 = 0)

theorem around_roundingInterval (m : Nat) (q : Int) : (roundingInterval m q).Around m q := by
  have hvalue := value_quarters m q
  have hlow : lowEnd m q = if m = binaryPower 52 ∧ leastExponent < q then 4 * m - 1 else 4 * m - 2 := rfl
  unfold roundingInterval
  rw [← hlow]
  split
  · rename_i k hk
    have hpower : (2 : ℚ) ^ (q - 2) = (2 ^ k : Nat) := by
      rw [hk, Int.ofNat_eq_natCast, zpow_natCast]
      push_cast
      rfl
    rw [hpower] at hvalue
    refine ⟨Nat.one_pos, ?_, ?_, ?_, rfl⟩
    · rw [hpower, Nat.cast_one, mul_one]
      exact_mod_cast rfl
    · rw [hvalue, Nat.cast_one, mul_one]
      exact_mod_cast rfl
    · rw [hpower, Nat.cast_one, mul_one]
      exact_mod_cast rfl
  · rename_i k hk
    have hpower : (2 : ℚ) ^ (q - 2) * (binaryPower (k + 1) : Nat) = 1 := by
      rw [hk, zpow_negSucc]
      change ((2 : ℚ) ^ (k + 1))⁻¹ * ((2 ^ (k + 1) : Nat) : ℚ) = 1
      push_cast
      exact inv_mul_cancel₀ (by positivity)
    refine ⟨Nat.two_pow_pos _, ?_, ?_, ?_, rfl⟩
    · rw [mul_assoc, hpower, mul_one]
    · rw [hvalue, mul_assoc, hpower, mul_one]
    · rw [mul_assoc, hpower, mul_one]

theorem roundsTo_iff_of_even {m : Nat} {q : Int} {v : ℚ} (hm : m % 2 = 0) :
    RoundsTo m q v ↔ lowEnd m q * 2 ^ (q - 2) ≤ v ∧ v ≤ (4 * m + 2 : Nat) * 2 ^ (q - 2) :=
  ⟨fun h => ⟨h.low, h.high⟩, fun h => ⟨h.1, h.2, fun _ => hm⟩⟩

theorem roundsTo_iff_of_odd {m : Nat} {q : Int} {v : ℚ} (hm : m % 2 ≠ 0) :
    RoundsTo m q v ↔ lowEnd m q * 2 ^ (q - 2) < v ∧ v < (4 * m + 2 : Nat) * 2 ^ (q - 2) := by
  constructor
  · intro h
    exact ⟨lt_of_le_of_ne h.low fun hend => hm (h.even (.inl hend.symm)),
      lt_of_le_of_ne h.high fun hend => hm (h.even (.inr hend))⟩
  · intro h
    refine ⟨h.1.le, h.2.le, fun hends => ?_⟩
    rcases hends with hend | hend
    · exact absurd h.1 (by rw [hend]; exact lt_irrefl _)
    · exact absurd h.2 (by rw [hend]; exact lt_irrefl _)

section Scaled

variable {a b : Nat} {x y s : ℚ}

theorem le_iff_of_scaled (hs : 0 < s) (ha : (a : ℚ) = x * s) (hb : (b : ℚ) = y * s) : x ≤ y ↔ a ≤ b := by
  rw [← mul_le_mul_iff_left₀ hs, ← ha, ← hb, Nat.cast_le]

theorem lt_iff_of_scaled (hs : 0 < s) (ha : (a : ℚ) = x * s) (hb : (b : ℚ) = y * s) : x < y ↔ a < b := by
  rw [← mul_lt_mul_iff_left₀ hs, ← ha, ← hb, Nat.cast_lt]

end Scaled

namespace Grid

variable {m : Nat} {q : Int} {i : Interval} (g : Grid)

theorem up_pos : 0 < g.up := Nat.pow_pos (by decide)

theorem down_pos : 0 < g.down := Nat.pow_pos (by decide)

/-- the step of the grid -/
theorem down_eq : (g.down : ℚ) = 10 ^ g.u * g.up := by
  have hup : (g.up : ℚ) = 10 ^ ((-g.u).toNat : Int) := by
    rw [zpow_natCast]
    exact Nat.cast_pow 10 _
  have hdown : (g.down : ℚ) = 10 ^ (g.u.toNat : Int) := by
    rw [zpow_natCast]
    exact Nat.cast_pow 10 _
  rw [hup, hdown, ← zpow_add₀ (by norm_num)]
  congr 1
  omega

/-- a point is in the interval when it is rounded to the float that the interval is around -/
theorem holds_iff (hi : i.Around m q) (c : Nat) : g.holds i c = true ↔ RoundsTo m q (c * 10 ^ g.u) := by
  have hscale : (0 : ℚ) < i.den * g.up := by exact_mod_cast Nat.mul_pos hi.den g.up_pos
  have hat : ((c * i.den * g.down : Nat) : ℚ) = c * 10 ^ g.u * (i.den * g.up) := by
    push_cast
    rw [down_eq]
    ring
  have hlow : ((i.low * g.up : Nat) : ℚ) = lowEnd m q * 2 ^ (q - 2) * (i.den * g.up) := by
    push_cast
    rw [hi.low]
    ring
  have hhigh : ((i.high * g.up : Nat) : ℚ) = (4 * m + 2 : Nat) * 2 ^ (q - 2) * (i.den * g.up) := by
    rw [Nat.cast_mul, hi.high]
    ring
  unfold holds
  dsimp only
  rw [hi.closed]
  by_cases hm : m % 2 = 0
  · rw [roundsTo_iff_of_even hm, le_iff_of_scaled hscale hlow hat, le_iff_of_scaled hscale hat hhigh]
    simp [hm]
  · rw [roundsTo_iff_of_odd hm, lt_iff_of_scaled hscale hlow hat, lt_iff_of_scaled hscale hat hhigh]
    simp [hm]

theorem holds_of_nearest? {c : Nat} (h : g.nearest? i = some c) : g.holds i c = true := by
  unfold nearest? at h
  dsimp only at h
  split at h
  · cases h
  · cases h
    assumption
  · cases h
    assumption
  · repeat' split at h
    all_goals
      cases h
      assumption

/-- the point below the value, and the one above it -/
theorem isSome_nearest? (h : g.holds i (i.value * g.up / (i.den * g.down)) = true ∨
    g.holds i (i.value * g.up / (i.den * g.down) + 1) = true) : (g.nearest? i).isSome = true := by
  unfold nearest?
  dsimp only
  rcases h with h | h <;> rw [h] <;> repeat' split
  all_goals simp_all

end Grid

/-! ## The search -/

/-- seventeen digits are enough: what is that near to a float is rounded to it -/
theorem RoundsTo.of_near {m : Nat} {q : Int} {v : ℚ} (hc : Canonical m q) (hm : 0 < m)
    (h : 2 * 10 ^ 16 * |v - m * 2 ^ q| ≤ m * 2 ^ q) : RoundsTo m q v := by
  have hs : (0 : ℚ) < 2 ^ (q - 2) := zpow_pos two_pos _
  have hvalue : (m : ℚ) * 2 ^ q = 4 * m * 2 ^ (q - 2) := by
    rw [value_quarters]
    push_cast
    rfl
  have hmantissa : (m : ℚ) < 2 ^ 53 := by exact_mod_cast hc.mantissa
  rw [hvalue] at h
  obtain ⟨hlow, hhigh⟩ : lowEnd m q * 2 ^ (q - 2) < v ∧ v < (4 * m + 2 : Nat) * 2 ^ (q - 2) := by
    push_cast
    -- one quarter of the last place is left at the least mantissa, and two quarters elsewhere
    rcases lowEnd_cases m q with hend | ⟨hend, hleast⟩
    · have hend' : (lowEnd m q : ℚ) = 4 * m - 2 := by
        rw [hend, Nat.cast_sub (by omega)]
        push_cast
        ring
      have hdistance := abs_lt.mp (show |v - 4 * m * 2 ^ (q - 2)| < 2 * 2 ^ (q - 2) by nlinarith)
      rw [hend']
      constructor <;> linarith
    · have hend' : (lowEnd m q : ℚ) = 4 * m - 1 := by
        rw [hend, Nat.cast_sub (by omega)]
        push_cast
        ring
      have hleast' : (m : ℚ) = 2 ^ 52 := by exact_mod_cast hleast
      have hdistance := abs_lt.mp (show |v - 4 * m * 2 ^ (q - 2)| < 2 ^ (q - 2) by
        rw [hleast'] at h ⊢
        nlinarith)
      rw [hend']
      constructor <;> linarith
  exact ⟨hlow.le, hhigh.le, fun hends => by rcases hends with hend | hend <;> linarith⟩

namespace Grid

variable {m : Nat} {q : Int} {i : Interval} (g : Grid)

/-- the value lies between the two points that are tried -/
theorem neighbours (hi : i.Around m q) : ∃ c, c = i.value * g.up / (i.den * g.down) ∧
    (c : ℚ) * 10 ^ g.u ≤ m * 2 ^ q ∧ m * 2 ^ q < ((c + 1 : Nat) : ℚ) * 10 ^ g.u := by
  have hscale : (0 : ℚ) < i.den * g.up := by exact_mod_cast Nat.mul_pos hi.den g.up_pos
  have hstep : 0 < i.den * g.down := Nat.mul_pos hi.den g.down_pos
  have hat (c : Nat) : ((c * (i.den * g.down) : Nat) : ℚ) = c * 10 ^ g.u * (i.den * g.up) := by
    push_cast
    rw [down_eq]
    ring
  have hvalue : ((i.value * g.up : Nat) : ℚ) = m * 2 ^ q * (i.den * g.up) := by
    push_cast
    rw [hi.value]
    ring
  refine ⟨_, rfl, ?_, ?_⟩
  · rw [le_iff_of_scaled hscale (hat _) hvalue]
    exact Nat.div_mul_le_self _ _
  · rw [lt_iff_of_scaled hscale hvalue (hat _)]
    exact Nat.lt_mul_of_div_lt (Nat.lt_succ_self _) hstep

/-- a fine grid has a point in the interval -/
theorem isSome_nearest?_of_fine (hi : i.Around m q) (hc : Canonical m q) (hm : 0 < m)
    (hfine : 10 ^ 16 * 10 ^ g.u ≤ (m : ℚ) * 2 ^ q) : (g.nearest? i).isSome = true := by
  obtain ⟨c, hself, hlow, hhigh⟩ := g.neighbours hi
  refine g.isSome_nearest? ?_
  rw [← hself, g.holds_iff hi, g.holds_iff hi]
  push_cast at hhigh ⊢
  have hsplit : ((c : ℚ) + 1) * 10 ^ g.u = c * 10 ^ g.u + 10 ^ g.u := by ring
  rw [hsplit] at hhigh ⊢
  rcases le_total (2 * ((m : ℚ) * 2 ^ q - c * 10 ^ g.u)) (10 ^ g.u) with hnear | hnear
  · refine .inl (.of_near hc hm ?_)
    rw [abs_sub_comm, abs_of_nonneg (by linarith)]
    linarith
  · refine .inr (.of_near hc hm ?_)
    rw [abs_of_nonneg (by linarith)]
    linarith

end Grid

/-- the number that a decimal is -/
def Numeral.value (d : Numeral) : ℚ := d.coefficient * 10 ^ d.exponent

theorem stripZeros_spec (fuel : Nat) (d : Numeral) :
    (stripZeros fuel d).value = d.value ∧ d.exponent ≤ (stripZeros fuel d).exponent := by
  induction fuel generalizing d with
  | zero => exact ⟨rfl, Int.le_refl _⟩
  | succ fuel ih =>
    rw [stripZeros]
    split
    · rename_i hzero
      obtain ⟨hvalue, hle⟩ := ih ⟨d.coefficient / 10, d.exponent + 1⟩
      refine ⟨hvalue.trans ?_, by dsimp only at hle; omega⟩
      have hself : d.coefficient = d.coefficient / 10 * 10 := by omega
      have hself' : (d.coefficient : ℚ) = (d.coefficient / 10 : Nat) * 10 := by exact_mod_cast hself
      simp only [Numeral.value]
      rw [hself', zpow_add_one₀ (by norm_num)]
      ring
    · exact ⟨rfl, Int.le_refl _⟩

/-- the search ends no later than at the first grid with a point in the interval -/
theorem searchGrids_of_isSome {i : Interval} {k : Int} {fuel n n₀ : Nat} (hlow : n ≤ n₀) (hhigh : n₀ < n + fuel)
    (h : (Grid.nearest? ⟨k - n₀⟩ i).isSome = true) :
    ∃ n' c, n' ≤ n₀ ∧ Grid.nearest? ⟨k - n'⟩ i = some c ∧
      searchGrids i k fuel n = some (stripZeros (digitCount c) ⟨c, k - n'⟩) := by
  induction fuel generalizing n with
  | zero => omega
  | succ fuel ih =>
    rw [searchGrids]
    cases hnearest : Grid.nearest? ⟨k - n⟩ i with
    | some c => exact ⟨n, c, hlow, hnearest, rfl⟩
    | none =>
      refine ih (Nat.lt_of_le_of_ne hlow ?_) (by omega)
      rintro rfl
      rw [hnearest] at h
      cases h

/-- the power of ten above m · 2^q -/
def decimalOrder (m : Nat) (q : Int) : Int := magnitude (roundingInterval m q).value (roundingInterval m q).den

theorem decimalOrder_low {m : Nat} {q : Int} (hm : 0 < m) : (10 : ℚ) ^ (decimalOrder m q - 1) ≤ m * 2 ^ q := by
  obtain ⟨hden, -, hvalue, -, -⟩ := around_roundingInterval m q
  have hden' : (0 : ℚ) < (roundingInterval m q).den := by exact_mod_cast hden
  have hpos : (0 : ℚ) < (roundingInterval m q).value := by
    rw [hvalue]
    exact mul_pos (value_pos hm q) hden'
  have hlow := magnitude_low (by exact_mod_cast hpos) hden
  rwa [hvalue, mul_div_assoc, div_self hden'.ne', mul_one] at hlow

theorem one_le_decimalOrder {m n : Nat} {q : Int} (hm : 0 < m) (hn : (m : ℚ) * 2 ^ q = n) : 1 ≤ decimalOrder m q := by
  obtain ⟨hden, -, hvalue, -, -⟩ := around_roundingInterval m q
  have hpos : 0 < n := by
    have hpos : (0 : ℚ) < n := hn ▸ value_pos hm q
    exact_mod_cast hpos
  have hle : (roundingInterval m q).den ≤ (roundingInterval m q).value := by
    rw [hn] at hvalue
    have hmul : (roundingInterval m q).value = n * (roundingInterval m q).den := by exact_mod_cast hvalue
    rw [hmul]
    exact Nat.le_mul_of_pos_left _ hpos
  have hcount := digitCount_pos ((roundingInterval m q).value / (roundingInterval m q).den)
  rw [decimalOrder, magnitude, if_pos hle]
  omega

/-- the shortest decimal has no more digits than any grid with a point in the interval gives -/
theorem shortest_of_isSome {m : Nat} {q : Int} {n : Nat} (hlow : 1 ≤ n) (hhigh : n ≤ 17)
    (h : (Grid.nearest? ⟨decimalOrder m q - n⟩ (roundingInterval m q)).isSome = true) :
    RoundsTo m q (shortest m q).value ∧ decimalOrder m q - n ≤ (shortest m q).exponent := by
  obtain ⟨n', c, hn', hnearest, hsearch⟩ := @searchGrids_of_isSome _ _ 17 _ _ hlow (by omega) h
  obtain ⟨hvalue, hexponent⟩ := stripZeros_spec (digitCount c) ⟨c, decimalOrder m q - n'⟩
  have hshortest : shortest m q = stripZeros (digitCount c) ⟨c, decimalOrder m q - n'⟩ := by
    unfold decimalOrder at hsearch ⊢
    simp only [shortest, hsearch, Option.getD_some]
  rw [hshortest, hvalue]
  refine ⟨?_, by dsimp only at hexponent; omega⟩
  exact (Grid.holds_iff _ (around_roundingInterval m q) c).mp (Grid.holds_of_nearest? _ hnearest)

section Shortest

variable {m : Nat} {q : Int} (hc : Canonical m q) (hm : 0 < m)

include hc hm

theorem isSome_nearest?_seventeen :
    (Grid.nearest? ⟨decimalOrder m q - (17 : Nat)⟩ (roundingInterval m q)).isSome = true := by
  refine Grid.isSome_nearest?_of_fine _ (around_roundingInterval m q) hc hm ?_
  calc (10 : ℚ) ^ 16 * 10 ^ (decimalOrder m q - (17 : Nat)) = 10 ^ (decimalOrder m q - 1) := by
        rw [← zpow_natCast, ← zpow_add₀ (by norm_num)]
        congr 1
        push_cast
        ring
    _ ≤ m * 2 ^ q := decimalOrder_low hm

/-- **The shortest decimal reads back.** It is rounded to the float that it was made for. -/
theorem roundsTo_shortest : RoundsTo m q (shortest m q).value :=
  (shortest_of_isSome (by decide) (Nat.le_refl 17) (isSome_nearest?_seventeen hc hm)).1

theorem coefficient_shortest : 0 < (shortest m q).coefficient := by
  have htiny := (roundsTo_shortest hc hm).tiny hc hm
  rcases Nat.eq_zero_or_pos (shortest m q).coefficient with hzero | hpos
  · rw [Numeral.value, hzero, Nat.cast_zero, zero_mul] at htiny
    exact absurd htiny (not_le_of_gt (zpow_pos two_pos _))
  · exact hpos

/-- the shortest decimal of an integer is an integer -/
theorem exponent_shortest {n : Nat} (hn : (m : ℚ) * 2 ^ q = n) : 0 ≤ (shortest m q).exponent := by
  have haround := around_roundingInterval m q
  by_cases hlong : 17 ≤ decimalOrder m q
  · have hle := (shortest_of_isSome (by decide) (Nat.le_refl 17) (isSome_nearest?_seventeen hc hm)).2
    push_cast at hle
    omega
  · -- the grid of the integers has the value itself as a point
    obtain ⟨k, hk⟩ := Int.eq_ofNat_of_zero_le (a := decimalOrder m q) (by have := one_le_decimalOrder hm hn; omega)
    have hunit : (decimalOrder m q - (k : Int)) = 0 := by omega
    have hsome : (Grid.nearest? ⟨decimalOrder m q - k⟩ (roundingInterval m q)).isSome = true := by
      rw [hunit]
      obtain ⟨c, hself, hlow, hhigh⟩ := Grid.neighbours ⟨0⟩ haround
      refine Grid.isSome_nearest? _ (.inl ?_)
      rw [← hself, Grid.holds_iff _ haround]
      rw [zpow_zero, mul_one, hn] at hlow hhigh
      have hexact : c = n := by
        have hle : c ≤ n := by exact_mod_cast hlow
        have hlt : n < c + 1 := by exact_mod_cast hhigh
        omega
      refine .of_near hc hm ?_
      rw [zpow_zero, mul_one, hexact, hn, sub_self, abs_zero, mul_zero]
      exact Nat.cast_nonneg n
    have hle := (shortest_of_isSome (by have := one_le_decimalOrder hm hn; omega) (by omega) hsome).2
    omega

end Shortest

/-! ## Sides -/

/-- what lies between a float and a number that is rounded to it, is rounded to it -/
theorem RoundsTo.between {m : Nat} {q : Int} {v w : ℚ} (h : RoundsTo m q v) (hm : 0 < m)
    (hw : v ≤ w ∧ w ≤ m * 2 ^ q ∨ m * 2 ^ q ≤ w ∧ w ≤ v) : RoundsTo m q w := by
  have hs : (0 : ℚ) < 2 ^ (q - 2) := zpow_pos two_pos _
  have hvalue := value_quarters m q
  have hend : lowEnd m q < 4 * m := by
    rcases lowEnd_cases m q with hend | ⟨hend, -⟩ <;> omega
  have hlow : (lowEnd m q : ℚ) * 2 ^ (q - 2) < m * 2 ^ q := by
    rw [hvalue]
    exact mul_lt_mul_of_pos_right (by exact_mod_cast hend) hs
  have hhigh : (m : ℚ) * 2 ^ q < (4 * m + 2 : Nat) * 2 ^ (q - 2) := by
    rw [hvalue]
    exact mul_lt_mul_of_pos_right (by exact_mod_cast (by omega : 4 * m < 4 * m + 2)) hs
  have hlow' := h.low
  have hhigh' := h.high
  rcases hw with ⟨hvw, hw⟩ | ⟨hw, hwv⟩
  · refine ⟨hlow'.trans hvw, hw.trans hhigh.le, fun hends => h.even (.inl ?_)⟩
    rcases hends with hend | hend <;> linarith
  · refine ⟨hlow.le.trans hw, hwv.trans hhigh', fun hends => h.even (.inr ?_)⟩
    rcases hends with hend | hend <;> linarith

section Sides

variable {f : Float} {m : Nat} {q : Int} (hf : read f = .finite false m q) (hm : 0 < m)

include hf hm

/-- A float and its shortest decimal are on the same side of a decimal, if this holds for the float nearest to the decimal:
no other float has it in its interval. -/
theorem shortest_lt_iff {n k m₀ : Nat} {q₀ : Int} (hnear : read (Float.ofScientific n true k) = .finite false m₀ q₀)
    (hself : (shortest m₀ q₀).value < n / 10 ^ k ↔ m₀ * 2 ^ q₀ < (n / 10 ^ k : ℚ)) :
    (shortest m q).value < n / 10 ^ k ↔ m * 2 ^ q < (n / 10 ^ k : ℚ) := by
  have hrounds := roundsTo_shortest (canonical_of_read hf hm) hm
  by_contra hnot
  have hbetween : RoundsTo m q (n / 10 ^ k) := by
    refine hrounds.between hm ?_
    rcases lt_or_ge (shortest m q).value (n / 10 ^ k) with hdecimal | hdecimal <;>
      rcases lt_or_ge ((m : ℚ) * 2 ^ q) (n / 10 ^ k) with hfloat | hfloat
    · exact absurd ⟨fun _ => hfloat, fun _ => hdecimal⟩ hnot
    · exact .inl ⟨hdecimal.le, hfloat⟩
    · exact .inr ⟨hfloat.le, hdecimal⟩
    · exact absurd ⟨fun h => absurd hdecimal (not_le_of_gt h), fun h => absurd hfloat (not_le_of_gt h)⟩ hnot
  rw [ofScientific_eq hf hm hbetween, hf] at hnear
  cases hnear
  exact hnot hself

theorem shortest_lt_million : (shortest m q).value < 10 ^ (6 : Int) ↔ m * 2 ^ q < (10 ^ (6 : Int) : ℚ) := by
  have hnear : read (Float.ofScientific 1000000 true 0) = .finite false 8589934592000000 (-33) := by decide +kernel
  have hshortest : shortest 8589934592000000 (-33) = ⟨1, 6⟩ := by decide +kernel
  have hsides := shortest_lt_iff hf hm hnear (by rw [hshortest]; norm_num [Numeral.value])
  norm_num at hsides ⊢
  exact hsides

/-- the float nearest to 0.0001 is greater, but its shortest decimal is 0.0001 -/
theorem shortest_lt_least : (shortest m q).value < 10 ^ (-4 : Int) ↔ m * 2 ^ q < (10 ^ (-4 : Int) : ℚ) := by
  have hnear : read (Float.ofScientific 1 true 4) = .finite false 7378697629483821 (-66) := by decide +kernel
  have hshortest : shortest 7378697629483821 (-66) = ⟨1, -4⟩ := by decide +kernel
  have hsides := shortest_lt_iff hf hm hnear (by rw [hshortest]; norm_num [Numeral.value])
  norm_num at hsides ⊢
  exact hsides

end Sides

end Ouroboros.Decimal
