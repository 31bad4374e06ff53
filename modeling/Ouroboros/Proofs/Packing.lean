/-
Floats and their bits, and the order of floats.

A float that is a number is packed again as it was unpacked (`pack_unpack`), so a float is known when its sign, mantissa and
exponent are. There are two zeros (`eq_of_read_zero`), and finite floats are compared as their values (`compare_of_value?`).
-/
import Ouroboros.Proofs.Nearest

namespace Ouroboros.Decimal

open Float.Model Float.Model.UnpackedFloat

/-! ## Packing -/

theorem toBitVec_ofBitVec (b : BitVec 1) : (Sign.ofBitVec b).toBitVec = b := by
  have hb : b = 0#1 ∨ b = 1#1 := by
    have hlt := b.isLt
    rcases (show b.toNat = 0 ∨ b.toNat = 1 by omega) with h | h
    · exact .inl (BitVec.eq_of_toNat_eq h)
    · exact .inr (BitVec.eq_of_toNat_eq h)
  rcases hb with rfl | rfl <;> rfl

theorem packComponents_unpack (b : BitVec 64) :
    packComponents Format.binary64 (Sign.ofBitVec (@unpackSign Format.binary64 b)) (@unpackExponent Format.binary64 b)
      (@unpackMantissa Format.binary64 b) = b := by
  rw [packComponents, toBitVec_ofBitVec]
  apply BitVec.eq_of_getLsbD_eq
  intro i hi
  change i < 64 at hi
  rw [BitVec.getLsbD_append, BitVec.getLsbD_append]
  simp only [unpackSign, unpackExponent, unpackMantissa, BitVec.getLsbD_cast, BitVec.getLsbD_extractLsb]
  split_ifs with h₁ h₂
  · simp [h₁]
  · simp [h₂, show 52 + (i - 52) = i by omega]
  · obtain rfl : i = 63 := by omega
    rfl

/-- the bits of a float with all its binary places -/
theorem pack_normal (s : Sign) {m : Nat} {q : Int} (h : 0 < m) (hlog : m.log2 = 52) {e : BitVec 11} (he : e ≠ -1#11)
    (hq : q + 1075 = e.toNat) :
    UnpackedFloat.pack Format.binary64 (.finite s m q h) = packComponents Format.binary64 s e (BitVec.ofNat 52 m) := by
  have hbiased : (q + Format.binary64.exponentBias + (52 : Nat)).toNat = e.toNat := by
    simp only [Format.exponentBias]
    omega
  have hlt : e.toNat < 2 ^ 11 := e.isLt
  have hnot : e.toNat ≠ 2047 := fun h0 => he (BitVec.eq_of_toNat_eq h0)
  simp only [UnpackedFloat.pack, hbiased, Format.mantissaBits, hlog, if_true, BitVec.ofNat_toNat, BitVec.setWidth_eq]
  rw [if_neg (by omega)]

/-- the bits of a float with fewer places -/
theorem pack_subnormal (s : Sign) {m : Nat} (h : 0 < m) (hm : m < 2 ^ 52) :
    UnpackedFloat.pack Format.binary64 (.finite s m (-1074) h) =
      packComponents Format.binary64 s 0#11 (BitVec.ofNat 52 m) := by
  have hlog : m.log2 < 52 := (Nat.log2_lt (Nat.ne_of_gt h)).mpr hm
  have hbiased : ((-1074 : Int) + Format.binary64.exponentBias + (52 : Nat)).toNat = 1 := rfl
  have hshort : m.log2 + 1 ≠ Format.binary64.mantissaBits := by
    simp only [Format.mantissaBits]
    omega
  simp only [UnpackedFloat.pack, hbiased, hshort, if_false]
  rfl

/-- the bits of a number are packed again as they were -/
theorem pack_unpack_components (s : Sign) (e : BitVec 11) (v : BitVec 52)
    (h : UnpackedFloat.unpack Format.binary64 (packComponents Format.binary64 s e v) ≠ .notANumber) :
    UnpackedFloat.pack Format.binary64 (UnpackedFloat.unpack Format.binary64 (packComponents Format.binary64 s e v)) =
      packComponents Format.binary64 s e v := by
  have hv : v.toNat < 2 ^ 52 := v.isLt
  simp only [UnpackedFloat.unpack, unpackExponent_packComponents, unpackMantissa_packComponents,
    unpackSign_packComponents, ofBitVec_toBitVec] at h ⊢
  split at h
  · rename_i hfull
    split at h
    · rename_i hzero
      rw [if_pos hfull, if_pos hzero, hfull, hzero]
      rfl
    · exact absurd rfl h
  · rename_i hfull
    rw [if_neg hfull]
    split at h
    · rename_i hempty
      rw [if_pos hempty]
      split at h
      · rename_i hzero
        rw [dif_pos hzero, hempty, hzero]
        rfl
      · rename_i hzero
        rw [dif_neg hzero]
        subst hempty
        have hpos : 0 < v.toNat := Nat.pos_of_ne_zero fun h0 => hzero (BitVec.eq_of_toNat_eq h0)
        have hpack := pack_subnormal s hpos hv
        rw [BitVec.ofNat_toNat, BitVec.setWidth_eq] at hpack
        exact hpack
    · rename_i hempty
      rw [if_neg hempty]
      have hlog : (1#1 ++ v).toNat.log2 = 52 := by
        rw [toNat_implicit]
        exact log2_eq (by omega) (by omega)
      have hplaces : BitVec.ofNat 52 (1#1 ++ v).toNat = v := by
        apply BitVec.eq_of_toNat_eq
        rw [toNat_implicit, BitVec.toNat_ofNat]
        omega
      rw [pack_normal s _ hlog hfull, hplaces]
      simp only [Format.exponentBias]
      omega

/-- a float is packed again as it was -/
theorem pack_unpack (f : Float.Model) (h : f.unpack ≠ .notANumber) : Float.Model.pack f.unpack = f := by
  obtain ⟨bits, hvalid⟩ := f
  unfold Float.Model.unpack at h
  rw [← packComponents_unpack bits.toBitVec] at h
  have hbits := pack_unpack_components _ _ _ h
  rw [packComponents_unpack] at hbits
  unfold Float.Model.pack Float.Model.unpack
  simp only [hbits]

/-- a float is packed from what its bits say -/
theorem ofModel_pack {f : Float} {u : UnpackedFloat} (h : f.toModel.unpack = u) (hu : u ≠ .notANumber) :
    Float.ofModel (Float.Model.pack u) = f := by
  rw [← h, pack_unpack f.toModel (h ▸ hu)]

/-! ## Reading -/

/-- the bits of a finite float that is not zero -/
theorem unpack_of_read {f : Float} {negative : Bool} {m : Nat} {q : Int} (h : read f = .finite negative m q) (hm : 0 < m) :
    ∃ s, f.toModel.unpack = .finite s m q hm ∧ (s == .negative) = negative := by
  unfold read at h
  split at h
  · cases h
  · cases h
  · cases h
    exact absurd hm (Nat.lt_irrefl 0)
  · rename_i s m' q' hm' hf
    cases h
    exact ⟨s, hf, rfl⟩

theorem unpack_of_read_positive {f : Float} {m : Nat} {q : Int} (h : read f = .finite false m q) (hm : 0 < m) :
    f.toModel.unpack = .finite .positive m q hm := by
  obtain ⟨s, hunpack, hs⟩ := unpack_of_read h hm
  cases s with
  | positive => exact hunpack
  | negative => cases hs

theorem canonical_of_read {f : Float} {negative : Bool} {m : Nat} {q : Int} (h : read f = .finite negative m q)
    (hm : 0 < m) : Canonical m q := by
  obtain ⟨s, hunpack, -⟩ := unpack_of_read h hm
  exact canonical_unpack hunpack

/-- there are two zeros -/
theorem eq_of_read_zero {f : Float} {negative : Bool} {q : Int} (h : read f = .finite negative 0 q) :
    q = 0 ∧ f = if negative then -0.0 else 0.0 := by
  have hzero (s : Sign) : Float.ofModel (Float.Model.pack (.zero s)) = if s == .negative then -0.0 else 0.0 := by
    cases s <;> decide +kernel
  unfold read at h
  split at h
  · cases h
  · cases h
  · rename_i s hunpack
    cases h
    exact ⟨rfl, by rw [← hzero, ofModel_pack hunpack UnpackedFloat.noConfusion]⟩
  · rename_i hpos _
    cases h
    exact absurd hpos (Nat.lt_irrefl 0)

theorem value?_of_read {f : Float} {m : Nat} {q : Int} (hf : read f = .finite false m q) :
    value? f = some ((m : ℚ) * 2 ^ q) := by
  rw [value?, hf]
  rfl

theorem value_pos {m : Nat} (hm : 0 < m) (q : Int) : (0 : ℚ) < m * 2 ^ q :=
  mul_pos (by exact_mod_cast hm) (zpow_pos two_pos q)

/-! ## Order -/

/-- of canonical mantissas and exponents, the exponents decide which value is less, and the mantissas when these are equal
-/
theorem canonical_lt {m n : Nat} {q r : Int} (hm : Canonical m q) (hn : Canonical n r) (h : q < r ∨ q = r ∧ m < n) :
    (m : ℚ) * 2 ^ q < n * 2 ^ r := by
  rcases h with hlt | ⟨rfl, hlt⟩
  · have hnormal : 2 ^ 52 ≤ n := hn.normal.resolve_right (by have := hm.least; omega)
    calc (m : ℚ) * 2 ^ q < (2 ^ 53 : Nat) * 2 ^ q :=
          mul_lt_mul_of_pos_right (by exact_mod_cast hm.mantissa) (zpow_pos two_pos q)
      _ = (2 ^ 52 : Nat) * 2 ^ (q + 1) := by rw [zpow_add_one₀ two_ne_zero]; push_cast; ring
      _ ≤ (2 ^ 52 : Nat) * 2 ^ r := by gcongr <;> [norm_num; omega]
      _ ≤ n * 2 ^ r := mul_le_mul_of_nonneg_right (by exact_mod_cast hnormal) (zpow_pos two_pos r).le
  · exact mul_lt_mul_of_pos_right (by exact_mod_cast hlt) (zpow_pos two_pos q)

theorem compare_of_canonical {m n : Nat} {q r : Int} (hm : Canonical m q) (hn : Canonical n r) :
    (compare q r).then (compare m n) = compare ((m : ℚ) * 2 ^ q) (n * 2 ^ r) := by
  rcases Int.lt_trichotomy q r with hq | rfl | hq
  · rw [compare_lt_iff_lt.mpr hq, compare_lt_iff_lt.mpr (canonical_lt hm hn (.inl hq))]
    rfl
  · rw [compare_eq_iff_eq.mpr rfl, Ordering.eq_then]
    rcases Nat.lt_trichotomy m n with hlt | rfl | hlt
    · rw [compare_lt_iff_lt.mpr hlt, compare_lt_iff_lt.mpr (canonical_lt hm hn (.inr ⟨rfl, hlt⟩))]
    · rw [compare_eq_iff_eq.mpr rfl, compare_eq_iff_eq.mpr rfl]
    · rw [compare_gt_iff_gt.mpr hlt, compare_gt_iff_gt.mpr (canonical_lt hn hm (.inr ⟨rfl, hlt⟩))]
  · rw [compare_gt_iff_gt.mpr hq, compare_gt_iff_gt.mpr (canonical_lt hn hm (.inl hq))]
    rfl

/-- negative values are in the reverse order -/
theorem compare_neg (x y : ℚ) : compare (-x) (-y) = (compare x y).swap := by
  rcases lt_trichotomy x y with hlt | rfl | hlt
  · rw [compare_lt_iff_lt.mpr hlt, compare_gt_iff_gt.mpr (neg_lt_neg hlt)]
    rfl
  · rw [compare_eq_iff_eq.mpr rfl, compare_eq_iff_eq.mpr rfl]
    rfl
  · rw [compare_gt_iff_gt.mpr hlt, compare_lt_iff_lt.mpr (neg_lt_neg hlt)]
    rfl

/-- a finite float is a zero, or holds its value with its sign -/
theorem unpack_of_value? {f : Float} {x : ℚ} (h : value? f = some x) :
    (∃ s, f.toModel.unpack = .zero s ∧ x = 0) ∨
      ∃ s m q, ∃ hm : 0 < m, f.toModel.unpack = .finite s m q hm ∧ Canonical m q ∧
        x = if s == .negative then -((m : ℚ) * 2 ^ q) else m * 2 ^ q := by
  cases hf : f.toModel.unpack with
  | notANumber => simp [value?, read, hf] at h
  | infinity s => simp [value?, read, hf] at h
  | zero s => exact .inl ⟨s, rfl, by simpa [value?, read, hf, signed] using h.symm⟩
  | finite s m q hm =>
    refine .inr ⟨s, m, q, hm, rfl, canonical_unpack hf, ?_⟩
    cases s <;> simpa [value?, read, hf, signed] using h.symm

/-- **Finite floats are compared as their values.** -/
theorem compare_of_value? {f g : Float} {x y : ℚ} (hf : value? f = some x) (hg : value? g = some y) :
    f.toModel.unpack.compare g.toModel.unpack = some (compare x y) := by
  rcases unpack_of_value? hf with ⟨s, hs, rfl⟩ | ⟨s, m, q, hm, hs, hc, rfl⟩ <;>
    rcases unpack_of_value? hg with ⟨s', hs', rfl⟩ | ⟨s', n, r, hn, hs', hc', rfl⟩ <;> rw [hs, hs']
  · rw [compare_eq_iff_eq.mpr rfl]
    rfl
  · have hpos := value_pos hn r
    cases s'
    · exact congrArg some (compare_gt_iff_gt.mpr (neg_neg_of_pos hpos)).symm
    · exact congrArg some (compare_lt_iff_lt.mpr hpos).symm
  · have hpos := value_pos hm q
    cases s
    · exact congrArg some (compare_lt_iff_lt.mpr (neg_neg_of_pos hpos)).symm
    · exact congrArg some (compare_gt_iff_gt.mpr hpos).symm
  · have hx := value_pos hm q
    have hy := value_pos hn r
    cases s <;> cases s'
    · exact congrArg some ((congrArg _ (compare_of_canonical hc hc')).trans (compare_neg _ _).symm)
    · exact congrArg some (compare_lt_iff_lt.mpr ((neg_neg_of_pos hx).trans hy)).symm
    · exact congrArg some (compare_gt_iff_gt.mpr ((neg_neg_of_pos hy).trans hx)).symm
    · exact congrArg some (compare_of_canonical hc hc')

theorem lt_iff_of_value? {f g : Float} {x y : ℚ} (hf : value? f = some x) (hg : value? g = some y) : f < g ↔ x < y := by
  rw [lt_iff, compare_of_value? hf hg, Option.some.injEq, compare_lt_iff_lt]

theorem le_iff_of_value? {f g : Float} {x y : ℚ} (hf : value? f = some x) (hg : value? g = some y) : f ≤ g ↔ x ≤ y := by
  have hle : f ≤ g ↔ (f.toModel.unpack.compare g.toModel.unpack).any (·.isLE) = true := decide_eq_true_iff
  rw [hle, compare_of_value? hf hg, Option.any_some, Ordering.isLE_iff_ne_gt, compare_gt_iff_gt, not_lt]

theorem beq_iff_of_value? {f g : Float} {x y : ℚ} (hf : value? f = some x) (hg : value? g = some y) :
    (f == g) = true ↔ x = y := by
  have heq : (f == g) = (f.toModel.unpack.compare g.toModel.unpack == some .eq) := rfl
  rw [heq, compare_of_value? hf hg, beq_iff_eq, Option.some.injEq, compare_eq_iff_eq]

end Ouroboros.Decimal
