/-
Bounds of ranges.

A float becomes an integer of 64 bits only when it is one: `Decimal.int64?_eq_some_iff` says so through the number that the
float is. The same comes out of guards that are all in float arithmetic (`Decimal.int64?_eq_guarded`): the float is neither
an infinity nor NaN, it equals itself without its fraction, and it is neither below the float of the least integer of 64
bits nor up to that of the greatest one. The latter is no 64-bit integer any more, since it is rounded up to 2^63, so the
two guards are not alike. What passes them is converted exactly.

`Eval.range_exact` carries this over to ranges, where the order of the bounds is tested before their size.
-/
import Ouroboros.Proofs.Packing
import Ouroboros.Proofs.Execution.Laps

namespace Ouroboros.Decimal

open Float.Model Float.Model.UnpackedFloat

variable {f : Float} {x : ℚ} {i : Int}

/-! ## Floats that are integers -/

theorem natAbs_signed (negative : Bool) (n : Nat) : (signed negative n).natAbs = n := by
  cases negative <;> simp [signed]

/-- a float whose value is an integer is found to be one -/
theorem exists_integer?_of_value? (h : value? f = some (i : ℚ)) : ∃ j, integer? f = some j := by
  unfold value? at h
  split at h
  · rename_i negative m q hread
    cases q with
    | ofNat q => exact ⟨_, by rw [integer?, hread]⟩
    | negSucc q =>
      -- the mantissa is a multiple of the power of two that the exponent divides it by
      have hvalue : (signed negative m : ℚ) = i * (2 ^ (q + 1) : Nat) := by
        have hpower : (2 : ℚ) ^ Int.negSucc q * (2 ^ (q + 1) : Nat) = 1 := by
          rw [zpow_negSucc]
          push_cast
          exact inv_mul_cancel₀ (by positivity)
        rw [← Option.some.inj h, mul_assoc, hpower, mul_one]
      have hmul : m = i.natAbs * 2 ^ (q + 1) := by
        have habs := congrArg Int.natAbs (show signed negative m = i * (2 ^ (q + 1) : Nat) by exact_mod_cast hvalue)
        rwa [natAbs_signed, Int.natAbs_mul, Int.natAbs_natCast] at habs
      have hmod : m % binaryPower (q + 1) = 0 := by
        rw [hmul]
        exact Nat.mul_mod_left ..
      exact ⟨_, by simp only [integer?, hread]; rw [if_pos hmod]⟩
  · cases h

theorem integer?_eq_some_iff : integer? f = some i ↔ value? f = some (i : ℚ) := by
  refine ⟨value?_of_integer?, fun h => ?_⟩
  obtain ⟨j, hj⟩ := exists_integer?_of_value? h
  have heq := Option.some.inj ((value?_of_integer? hj).symm.trans h)
  rw [hj, Int.cast_inj.mp heq]

/-- **Exactly the integers of 64 bits.** -/
theorem int64?_eq_some_iff : int64? f = some i ↔ value? f = some (i : ℚ) ∧ -int64Bound ≤ i ∧ i < int64Bound := by
  rw [← integer?_eq_some_iff, int64?]
  constructor
  · intro h
    split at h
    · rename_i n hn
      split at h
      · rename_i hfits
        cases h
        exact ⟨hn, hfits⟩
      · cases h
    · cases h
  · rintro ⟨hi, hfits⟩
    rw [hi]
    exact if_pos hfits

/-! ## Without the fraction -/

/-- a float without its fraction -/
def whole (f : Float) : Float :=
  match f.toModel.unpack with
  | .finite s m (.negSucc k) _ => packed s (m / 2 ^ (k + 1))
  | _ => f

/-- a natural number of at most 53 binary places is a float, and so is its opposite -/
theorem value?_packed (s : Sign) {n : Nat} (hn : n < 2 ^ 53) :
    value? (packed s n) = some (signed (s == .negative) n : ℚ) := by
  rcases Nat.eq_zero_or_pos n with rfl | hpos
  · refine value?_of_integer? ?_
    cases s <;> decide +kernel
  · exact value?_of_integer? (integer?_packed_short s hpos (Nat.le_of_lt_succ ((Nat.log2_lt hpos.ne').mpr hn)))

theorem truncate_of_integer? (h : integer? f = some i) : truncate f = i := by
  unfold integer? at h
  unfold truncate
  split at h
  · exact Option.some.inj h
  · split at h
    · exact Option.some.inj h
    · cases h
  · cases h

theorem value?_whole (h : value? f = some x) : value? (whole f) = some (truncate f : ℚ) := by
  rcases unpack_of_value? h with ⟨s, hs, rfl⟩ | ⟨s, m, q, hm, hs, hc, -⟩
  · have htruncate : truncate f = 0 := by
      rw [truncate, read, hs]
      cases s <;> rfl
    rw [whole, hs, htruncate, Int.cast_zero]
    exact h
  · cases q with
    | ofNat q =>
      have hinteger := integer?_of_whole (q := q) hs
      rw [whole, hs, truncate_of_integer? hinteger]
      exact value?_of_integer? hinteger
    | negSucc k =>
      have htruncate : truncate f = signed (s == .negative) (m / 2 ^ (k + 1)) := by rw [truncate, read, hs]; rfl
      rw [whole, hs, htruncate]
      exact value?_packed s (Nat.lt_of_le_of_lt (Nat.div_le_self ..) hc.mantissa)

/-- a finite float is an integer when it equals itself without its fraction -/
theorem beq_whole_iff (h : value? f = some x) : (f == whole f) = true ↔ ∃ i, integer? f = some i := by
  rw [beq_iff_of_value? h (value?_whole h)]
  constructor
  · intro hx
    exact ⟨truncate f, integer?_eq_some_iff.mpr (by rw [h, hx])⟩
  · rintro ⟨i, hi⟩
    rw [truncate_of_integer? hi]
    exact Option.some.inj (h.symm.trans (value?_of_integer? hi))

/-! ## The conversion -/

theorem apply_eq_signed (s : Sign) (n : Nat) : s.apply (n : Int) = signed (s == .negative) n := by
  cases s <;> rfl

/-- a finite float is converted by dropping its fraction -/
theorem toInt_unpack (h : value? f = some x) (least greatest : Int) :
    f.toModel.unpack.toInt least greatest = truncate f := by
  rcases unpack_of_value? h with ⟨s, hs, -⟩ | ⟨s, m, q, hm, hs, -, -⟩
  · rw [truncate, read, hs]
    cases s <;> rfl
  · rw [truncate, read, hs]
    dsimp only [UnpackedFloat.toInt]
    -- the exponent shifts the mantissa to the left, or to the right when it is negative
    cases q with
    | ofNat k =>
      have hleft : (Int.ofNat k - 0).toNat = k := by simp
      have hright : (0 - (Int.ofNat k - (k : Int))).toNat = 0 := by simp
      simp only [roundToInt, decreaseExponent, hleft, shiftToExponent, hright, mantissa_shiftRight, apply_eq_signed,
        Nat.shiftLeft_eq]
      simp [ExtendedMantissa.ofMantissaAndAccuracy]
    | negSucc k =>
      have hleft : (Int.negSucc k - 0).toNat = 0 := rfl
      have hright : (0 - (Int.negSucc k - ((0 : Nat) : Int))).toNat = k + 1 := by omega
      simp only [roundToInt, decreaseExponent, hleft, shiftToExponent, hright, mantissa_shiftRight, apply_eq_signed,
        Nat.shiftLeft_zero]
      rfl

/-- an integer of 64 bits is converted to itself -/
theorem toInt_toInt64 (h : int64? f = some i) : f.toModel.toInt64.toInt = i := by
  obtain ⟨hvalue, hlow, hhigh⟩ := int64?_eq_some_iff.mp h
  have hconverted := toInt_unpack hvalue Int64.minValue.toInt Int64.maxValue.toInt
  rw [truncate_of_integer? (integer?_eq_some_iff.mpr hvalue)] at hconverted
  rw [Float.Model.toInt64, UnpackedFloat.toInt64, hconverted]
  exact Int64.toInt_ofIntClamp hlow (Int.le_sub_one_of_lt hhigh)

/-! ## The guards -/

/-- the least integer of 64 bits as a float -/
def leastInt64 : Float := Float.ofModel (Float.Model.ofInt64 Int64.minValue)

/-- the greatest integer of 64 bits as a float, which is greater -/
def greatestInt64 : Float := Float.ofModel (Float.Model.ofInt64 Int64.maxValue)

/-- the conversion to an integer of 64 bits, with its guards in float arithmetic -/
def guarded? (f : Float) : Option Int64 :=
  if !(!f.isInf && !f.isNaN && f == whole f) || decide (f < leastInt64) || decide (greatestInt64 ≤ f) then none
  else some f.toModel.toInt64

theorem value?_leastInt64 : value? leastInt64 = some ((-int64Bound : Int) : ℚ) :=
  value?_of_integer? (by decide +kernel)

theorem value?_greatestInt64 : value? greatestInt64 = some (int64Bound : ℚ) :=
  value?_of_integer? (by decide +kernel)

theorem value?_eq_none_iff : value? f = none ↔ (!f.isInf && !f.isNaN) = false := by
  change _ ↔ (!f.toModel.unpack.isInf && !f.toModel.unpack.isNaN) = false
  rw [value?, read]
  cases f.toModel.unpack <;> simp [UnpackedFloat.isInf, UnpackedFloat.isNaN]

/-- the guard for integers -/
theorem isIntegral_eq_guards (f : Float) : isIntegral f = (!f.isInf && !f.isNaN && f == whole f) := by
  cases hf : value? f with
  | none =>
    have hnone : integer? f = none := Option.eq_none_iff_forall_ne_some.mpr fun i hi => by
      rw [value?_of_integer? hi] at hf
      cases hf
    rw [value?_eq_none_iff.mp hf, isIntegral, hnone]
    rfl
  | some x =>
    have hfinite : (!f.isInf && !f.isNaN) = true := by
      rw [← Bool.not_eq_false, ← value?_eq_none_iff, hf]
      exact Option.some_ne_none x
    rw [hfinite, Bool.true_and, Bool.eq_iff_iff, beq_whole_iff hf, isIntegral, Option.isSome_iff_exists]

/-- the guards for the size of an integer -/
theorem sizeGuards_iff (h : integer? f = some i) :
    (decide (f < leastInt64) || decide (greatestInt64 ≤ f)) = true ↔ ¬(-int64Bound ≤ i ∧ i < int64Bound) := by
  have hvalue := value?_of_integer? h
  rw [Bool.or_eq_true, decide_eq_true_eq, decide_eq_true_eq, lt_iff_of_value? hvalue value?_leastInt64,
    le_iff_of_value? value?_greatestInt64 hvalue, Int.cast_lt, Int.cast_le, not_and_or, not_le, not_lt]

/-- **The guards suffice.** The conversion behind its guards is neither wrapped nor clamped. -/
theorem int64?_eq_guarded (f : Float) : int64? f = (guarded? f).map Int64.toInt := by
  rw [guarded?, ← isIntegral_eq_guards, isIntegral]
  cases hi : integer? f with
  | none => simp [int64?, hi]
  | some i =>
    rw [Option.isSome_some, Bool.not_true, Bool.false_or]
    by_cases hfits : -int64Bound ≤ i ∧ i < int64Bound
    · have hconverts : int64? f = some i := int64?_eq_some_iff.mpr ⟨value?_of_integer? hi, hfits⟩
      rw [if_neg fun hguards => (sizeGuards_iff hi).mp hguards hfits, hconverts, Option.map_some, toInt_toInt64 hconverts]
    · rw [if_pos ((sizeGuards_iff hi).mpr hfits), int64?, hi]
      exact if_neg hfits

end Ouroboros.Decimal

namespace Ouroboros.Eval

open Decimal

variable {pos : Pos} {a b : Value} {m : Machine} {i j : Int}

/-! ## Ranges -/

/-- the value is a number and exactly the integer, which has 64 bits -/
def IsBound (v : Value) (i : Int) : Prop := ∃ n, v = .number n ∧ value? n.value = some (i : ℚ) ∧ IsInt64 i

theorem isBound_number {n : Number} : IsBound (.number n) i ↔ int64? n.value = some i := by
  rw [int64?_eq_some_iff]
  constructor
  · rintro ⟨_, ⟨⟩, h⟩
    exact h
  · exact fun h => ⟨n, rfl, h⟩

theorem isIntegral_of_int64? {f : Float} (h : int64? f = some i) : isIntegral f = true := by
  rw [isIntegral, integer?_eq_some_iff.mpr (int64?_eq_some_iff.mp h).1]
  rfl

/-- floats that are integers are in the order of these integers -/
theorem lt_iff_of_int64? {f g : Float} (hf : int64? f = some i) (hg : int64? g = some j) : g < f ↔ j < i := by
  rw [lt_iff_of_value? (int64?_eq_some_iff.mp hg).1 (int64?_eq_some_iff.mp hf).1, Int.cast_lt]

/-- a range with bounds in order is made -/
theorem range_of_isBound (ha : IsBound a i) (hb : IsBound b j) (h : i ≤ j) (pos : Pos) (m : Machine) :
    range pos a b m = (.ok (.range i j), m) := by
  obtain ⟨n, rfl, hn⟩ := ha
  obtain ⟨k, rfl, hk⟩ := hb
  have hi : int64? n.value = some i := int64?_eq_some_iff.mpr hn
  have hj : int64? k.value = some j := int64?_eq_some_iff.mpr hk
  have horder : ¬k.value < n.value := mt (lt_iff_of_int64? hi hj).mp (Int.not_lt.mpr h)
  simp only [range, isIntegral_of_int64? hi, isIntegral_of_int64? hj, horder, hi, hj]
  rfl

/-- what else becomes of two values is a failure of one kind at the place of the range -/
theorem range_cases (pos : Pos) (a b : Value) (m : Machine) :
    (∃ i j, IsBound a i ∧ IsBound b j ∧ i ≤ j) ∨
      ∃ fault, fault.kind = .typeError ∧ range pos a b m = (.error ⟨fault, pos, [], false⟩, m) := by
  cases ranged a b with
  | range horder hi hj =>
    rw [lt_iff_of_int64? hi hj, Int.not_lt] at horder
    exact .inl ⟨_, _, isBound_number.mpr hi, isBound_number.mpr hj, horder⟩
  | fault hkind h => exact .inr ⟨_, hkind, congrFun (h pos) m⟩

/-- **Ranges are exact.** A float becomes an integer of 64 bits exactly when its value is one, and then it becomes this
integer; guards in float arithmetic, for integers and for their size, say the same. Where both operands of a range have
values, the machine is left as they leave it. The outcome is a range exactly when both values are numbers, each of them is
an integer of 64 bits and the first is not the greater one; these integers are its bounds. Every other outcome is a type
error at the place of the range. -/
theorem range_exact :
    (∀ f i, int64? f = some i ↔ value? f = some (i : ℚ) ∧ IsInt64 i) ∧
    (∀ f, isIntegral f = (!f.isInf && !f.isNaN && f == whole f) ∧ int64? f = (guarded? f).map Int64.toInt) ∧
    ∀ (call : Call) (scope : ScopeId) (pos : Pos) (low high : Expr) (a b : Value) (m m₁ m₂ : Machine),
      expr call scope low m = (.ok a, m₁) → expr call scope high m₁ = (.ok b, m₂) →
      ∃ outcome, expr call scope (.range pos low high) m = (outcome, m₂) ∧
        (∀ v, outcome = .ok v ↔ ∃ i j, IsBound a i ∧ IsBound b j ∧ i ≤ j ∧ v = .range i j) ∧
        ∀ d, outcome = .error d → d.kind = .typeError ∧ d.pos = pos := by
  refine ⟨fun f i => int64?_eq_some_iff, fun f => ⟨isIntegral_eq_guards f, int64?_eq_guarded f⟩, ?_⟩
  intro call scope pos low high a b m m₁ m₂ hlow hhigh
  have hrange : expr call scope (.range pos low high) m = range pos a b m₂ := by
    simp only [expr, Action.bind_apply, hlow, hhigh]
  rw [hrange]
  rcases range_cases pos a b m₂ with ⟨i, j, ha, hb, hle⟩ | ⟨fault, hkind, hfails⟩
  · refine ⟨.ok (.range i j), range_of_isBound ha hb hle pos m₂, fun v => ⟨?_, ?_⟩, fun d hd => by cases hd⟩
    · rintro ⟨⟩
      exact ⟨i, j, ha, hb, hle, rfl⟩
    · rintro ⟨i', j', ha', hb', hle', rfl⟩
      exact congrArg Prod.fst ((range_of_isBound ha hb hle pos m₂).symm.trans (range_of_isBound ha' hb' hle' pos m₂))
  · refine ⟨.error ⟨fault, pos, [], false⟩, hfails, fun v => ⟨fun hv => (by cases hv), ?_⟩, ?_⟩
    · rintro ⟨i, j, ha, hb, hle, rfl⟩
      exact congrArg Prod.fst (hfails.symm.trans (range_of_isBound ha hb hle pos m₂))
    · rintro d ⟨⟩
      exact ⟨hkind, rfl⟩

/-- the least integer of 64 bits, as programs write it -/
def lowest : Expr := .binary .start .sub (.number .start 0 true (text "0"))
  (.number .start 9223372036854775808 true (text "9223372036854775808"))

/-- from the least integer of 64 bits a range goes up to the greatest float below 2^63, and not up to 2^63 itself -/
theorem range_exact_limits :
    expr apply 1 lowest (Machine.start .fresh 10) =
      (.ok (.number ⟨-9223372036854775808, true⟩), Machine.start .fresh 10) ∧
    expr apply 1 (.range .start lowest (.number .start 9223372036854774784 true [])) (Machine.start .fresh 10) =
      (.ok (.range (-9223372036854775808) 9223372036854774784), Machine.start .fresh 10) ∧
    ∃ d, expr apply 1 (.range .start lowest (.number .start 9223372036854775808 true [])) (Machine.start .fresh 10) =
      (.error d, Machine.start .fresh 10) ∧ d.kind = .typeError := by
  have hlowest : expr apply 1 lowest (Machine.start .fresh 10) =
      (.ok (.number ⟨-9223372036854775808, true⟩), Machine.start .fresh 10) := by
    have hnumber : (Number.make 0 true).sub (Number.make 9223372036854775808 true) = ⟨-9223372036854775808, true⟩ := by
      decide +kernel
    simp only [lowest, expr, Action.bind_apply, Action.pure_apply, binary, hnumber]
  have hnumber (x : Float) : expr apply 1 (.number .start x true []) (Machine.start .fresh 10) =
      (.ok (.number (Number.make x true)), Machine.start .fresh 10) := by
    simp only [expr, Action.pure_apply]
  refine ⟨hlowest, ?_, ?_⟩
  · obtain ⟨outcome, hrun, hok, -⟩ := range_exact.2.2 apply 1 .start _ _ _ _ _ _ _ hlowest (hnumber 9223372036854774784)
    have hrange := (hok (.range (-9223372036854775808) 9223372036854774784)).mpr
      ⟨_, _, isBound_number.mpr (by decide +kernel), isBound_number.mpr (by decide +kernel), by decide, rfl⟩
    rw [hrun, hrange]
  · obtain ⟨outcome, hrun, hok, hkind⟩ :=
      range_exact.2.2 apply 1 .start _ _ _ _ _ _ _ hlowest (hnumber 9223372036854775808)
    cases outcome with
    | error d => exact ⟨d, hrun, (hkind d rfl).1⟩
    | ok v =>
      obtain ⟨i, j, -, hj, -⟩ := (hok v).mp rfl
      have hnone : int64? (Number.make 9223372036854775808 true).value = none := by decide +kernel
      rw [isBound_number, hnone] at hj
      cases hj

end Ouroboros.Eval
