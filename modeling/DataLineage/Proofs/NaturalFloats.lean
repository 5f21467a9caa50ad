import DataLineage.Placement.Orders
import Mathlib

/-!
# Natural numbers as floating-point numbers

Nodes are sorted by floating-point numbers, and a node without neighbours by its own place as one.
Beyond 2 ^ 53 these are rounded, but rounding never turns an order round, so the keys of greater
places are never less.

* `Binary64.nearest_mono`: rounding off digits keeps the order.
* `Binary64.toNat_pack_round`: the bits of a rounded number, as its exponent times 2 ^ 52 plus its
  mantissa.
* `Binary64.toNat_toBits_ofNat`: the bits of a natural number.
* `totalOrderKey_ofNat_mono`: the keys of natural numbers are in the order of the numbers.
-/

namespace DataLineage

open Float.Model Float.Model.UnpackedFloat

variable {m n k : ℕ}

namespace Binary64

/-! ## Rounding -/

/-- A number over `2 ^ k` as the nearest natural number, and as the even one of two. -/
def nearest (m k : ℕ) : ℕ :=
  if 2 * (m % 2 ^ k) < 2 ^ k then m / 2 ^ k
  else if 2 * (m % 2 ^ k) = 2 ^ k then m / 2 ^ k + m / 2 ^ k % 2
  else m / 2 ^ k + 1

theorem div_le_nearest (m k : ℕ) : m / 2 ^ k ≤ nearest m k := by
  unfold nearest
  split_ifs <;> omega

theorem nearest_le (m k : ℕ) : nearest m k ≤ m / 2 ^ k + 1 := by
  unfold nearest
  split_ifs <;> omega

/-- **Rounding keeps the order.** -/
theorem nearest_mono (h : m ≤ n) (k : ℕ) : nearest m k ≤ nearest n k := by
  rcases Nat.eq_or_lt_of_le (Nat.div_le_div_right (c := 2 ^ k) h) with hq | hq
  · -- with equal quotients the remainders are in order
    have hr : m % 2 ^ k ≤ n % 2 ^ k := by
      have hm := Nat.div_add_mod m (2 ^ k)
      have hn := Nat.div_add_mod n (2 ^ k)
      rw [hq] at hm
      omega
    unfold nearest
    rw [hq]
    split_ifs <;> omega
  · have hm := nearest_le m k
    have hn := div_le_nearest n k
    omega

/-- Zeros at the end are rounded off without a trace. -/
theorem nearest_mul_two_pow (m k j : ℕ) : nearest (m * 2 ^ j) (k + j) = nearest m k := by
  have hpos : 0 < 2 ^ j := Nat.two_pow_pos j
  have hdiv : m * 2 ^ j / 2 ^ (k + j) = m / 2 ^ k := by
    rw [Nat.pow_add, Nat.mul_div_mul_right _ _ hpos]
  have hmod : 2 * (m * 2 ^ j % 2 ^ (k + j)) = 2 * (m % 2 ^ k) * 2 ^ j := by
    rw [Nat.pow_add, Nat.mul_mod_mul_right, Nat.mul_assoc]
  rw [nearest, nearest, hdiv, hmod, Nat.pow_add]
  simp only [Nat.mul_lt_mul_right hpos, Nat.mul_left_inj hpos.ne']

theorem nearest_zero (m : ℕ) : nearest m 0 = m := by
  simp [nearest, Nat.mod_one]

/-- A mantissa with its two residual bits stands for a number over `2 ^ k`. -/
structure StandsFor (em : ExtendedMantissa) (m k : ℕ) : Prop where
  mantissa : em.mantissa = m / 2 ^ k
  roundBit : em.roundBit = true ↔ 2 ^ k ≤ 2 * (m % 2 ^ k)
  stickyBit : em.stickyBit = true ↔ m % 2 ^ k ≠ 0 ∧ 2 * (m % 2 ^ k) ≠ 2 ^ k

theorem StandsFor.shiftRightOne {em : ExtendedMantissa} (h : StandsFor em m k) :
    StandsFor em.shiftRightOne m (k + 1) := by
  have hpos : 0 < 2 ^ k := Nat.two_pow_pos k
  have hlt : m % 2 ^ k < 2 ^ k := Nat.mod_lt m hpos
  -- the lowest bit of the quotient goes over to the remainder
  have hmod : m % 2 ^ (k + 1) = m % 2 ^ k + 2 ^ k * (m / 2 ^ k % 2) := by
    rw [Nat.pow_succ, Nat.mod_mul]
  have hbit : m / 2 ^ k % 2 = 0 ∨ m / 2 ^ k % 2 = 1 := Nat.mod_two_eq_zero_or_one _
  refine ⟨?_, ?_, ?_⟩
  · rw [ExtendedMantissa.shiftRightOne, h.mantissa, Nat.div_div_eq_div_mul, Nat.pow_succ]
  · rw [ExtendedMantissa.shiftRightOne, h.mantissa, hmod, Nat.pow_succ]
    rcases hbit with hbit | hbit <;> simp [hbit] <;> omega
  · rw [ExtendedMantissa.shiftRightOne, Bool.or_eq_true, h.roundBit, h.stickyBit, hmod,
      Nat.pow_succ]
    rcases hbit with hbit | hbit <;> simp only [hbit] <;> omega

theorem standsFor_shiftRight (m k : ℕ) :
    StandsFor (ExtendedMantissa.ofMantissaAndAccuracy m .exact >>> k) m k := by
  change StandsFor (k.repeat ExtendedMantissa.shiftRightOne _) m k
  induction k with
  | zero => exact ⟨by simp [Nat.repeat, ExtendedMantissa.ofMantissaAndAccuracy],
      by simp [Nat.repeat, ExtendedMantissa.ofMantissaAndAccuracy, Nat.mod_one],
      by simp [Nat.repeat, ExtendedMantissa.ofMantissaAndAccuracy, Nat.mod_one]⟩
  | succ k ih => exact ih.shiftRightOne

theorem StandsFor.roundedMantissa {em : ExtendedMantissa} (h : StandsFor em m k) :
    em.roundedMantissa = nearest m k := by
  obtain ⟨mantissa, roundBit, stickyBit⟩ := em
  obtain ⟨hmantissa, hround, hsticky⟩ := h
  simp only at hmantissa hround hsticky
  subst hmantissa
  cases roundBit <;> cases stickyBit <;>
    simp only [ExtendedMantissa.roundedMantissa, ExtendedMantissa.accuracy,
      Accuracy.roundToNearestEven, nearest] <;>
    simp at hround hsticky <;> split_ifs <;> omega

/-- Rounded to 53 digits, a number has 53 digits or is the least one of 54. -/
theorem nearest_bounds (hlow : 2 ^ (k + 52) ≤ m) (hhigh : m < 2 ^ (k + 53)) :
    2 ^ 52 ≤ nearest m k ∧ nearest m k ≤ 2 ^ 53 := by
  have hpos : 0 < 2 ^ k := Nat.two_pow_pos k
  have hdlow : 2 ^ 52 ≤ m / 2 ^ k := by
    rw [Nat.le_div_iff_mul_le hpos, ← Nat.pow_add, Nat.add_comm]
    exact hlow
  have hdhigh : m / 2 ^ k < 2 ^ 53 := by
    rw [Nat.div_lt_iff_lt_mul hpos, ← Nat.pow_add, Nat.add_comm]
    exact hhigh
  exact ⟨hdlow.trans (div_le_nearest m k), (nearest_le m k).trans hdhigh⟩

/-! ## Bits -/

/-- The bits of the number `m * 2 ^ e`, of a mantissa with 53 digits. -/
def bitsOf (m : ℕ) (e : ℤ) : ℕ := min ((e + 1074).toNat * 2 ^ 52 + m) (2047 * 2 ^ 52)

theorem toNat_packComponents (b : BitVec 11) (c : BitVec 52) :
    (packComponents .binary64 .positive b c).toNat = b.toNat * 2 ^ 52 + c.toNat := by
  rw [packComponents, BitVec.toNat_append, ← Nat.shiftLeft_add_eq_or_of_lt c.isLt,
    BitVec.toNat_append, Nat.shiftLeft_eq]
  simp [Sign.toBitVec]

theorem log2_eq (hlow : 2 ^ k ≤ m) (hhigh : m < 2 ^ (k + 1)) : m.log2 = k :=
  (Nat.log2_eq_iff (Nat.ne_of_gt (Nat.lt_of_lt_of_le (Nat.two_pow_pos k) hlow))).2 ⟨hlow, hhigh⟩

/-- How a number is packed whose mantissa has 53 digits. -/
theorem pack_finite {e : ℤ} (hlow : 2 ^ 52 ≤ m) (hhigh : m < 2 ^ 53) (he : -1074 ≤ e)
    (hm : 0 < m) : UnpackedFloat.pack .binary64 (.finite .positive m e hm) =
      if e ≤ 971 then
        packComponents .binary64 .positive (BitVec.ofNat 11 ((e + 1074).toNat + 1))
          (BitVec.ofNat 52 m)
      else packedInfinity .binary64 .positive := by
  have hlog : m.log2 = 52 := log2_eq hlow hhigh
  have hbias : (e + (Format.binary64.exponentBias : ℕ) + (52 : ℕ)).toNat =
      (e + 1074).toNat + 1 := by
    simp only [Format.exponentBias]
    omega
  simp only [UnpackedFloat.pack, hbias, hlog, Format.mantissaBits]
  by_cases hmax : e ≤ 971
  · rw [if_pos hmax, if_neg (by omega)]
    rfl
  · rw [if_neg hmax, if_pos (by omega)]

/-- The bits of a number whose mantissa has 53 digits. -/
theorem toNat_pack {e : ℤ} (hlow : 2 ^ 52 ≤ m) (hhigh : m < 2 ^ 53) (he : -1074 ≤ e) (hm : 0 < m) :
    (UnpackedFloat.pack .binary64 (.finite .positive m e hm)).toNat = bitsOf m e := by
  rw [pack_finite hlow hhigh he hm, bitsOf]
  split_ifs with hmax
  · rw [toNat_packComponents, BitVec.toNat_ofNat, BitVec.toNat_ofNat]
    -- the highest digit of the mantissa is left out and counts for the exponent
    omega
  · rw [packedInfinity, toNat_packComponents]
    simp
    omega

/-- One more digit than there is room for goes over to the exponent. -/
theorem bitsOf_two_pow {e : ℤ} (he : -1074 ≤ e) : bitsOf (2 ^ 52) (e + 1) = bitsOf (2 ^ 53) e := by
  have h : (e + 1 + 1074).toNat = (e + 1074).toNat + 1 := by omega
  rw [bitsOf, bitsOf, h]
  omega

/-! ## Rounded numbers -/

theorem shiftToTargetExponent_eq {e : ℤ} (hlow : 2 ^ (k + 52) ≤ m) (hhigh : m < 2 ^ (k + 53))
    (he : -1074 ≤ e + k) :
    shiftToTargetExponent .binary64 m e .exact =
      (ExtendedMantissa.ofMantissaAndAccuracy m .exact >>> k, e + k) := by
  have hlog : m.log2 = k + 52 := log2_eq hlow hhigh
  have htarget : Format.binary64.targetExponent (totalExponent m e) - e = k := by
    simp only [Format.targetExponent, totalExponent, Format.minExponent, Format.mantissaBits, hlog]
    omega
  rw [shiftToTargetExponent, shiftToExponent, htarget]
  rfl

/-- A number that still has 53 digits after rounding. -/
theorem round_eq {e : ℤ} (hlow : 2 ^ (k + 52) ≤ m) (hhigh : m < 2 ^ (k + 53)) (he : -1074 ≤ e + k)
    (hq : nearest m k < 2 ^ 53) (hpos : 0 < nearest m k) :
    roundWithAccuracy .binary64 .positive m e .exact =
      .finite .positive (nearest m k) (e + k) hpos := by
  have hagain : shiftToTargetExponent .binary64 (nearest m k) (e + k) .exact =
      (ExtendedMantissa.ofMantissaAndAccuracy (nearest m k) .exact >>> 0, e + k + (0 : ℕ)) :=
    shiftToTargetExponent_eq (nearest_bounds hlow hhigh).1 hq (he.trans_eq (add_zero _).symm)
  have hmantissa := (standsFor_shiftRight (nearest m k) 0).mantissa
  simp only [roundWithAccuracy, shiftToTargetExponent_eq hlow hhigh he,
    (standsFor_shiftRight m k).roundedMantissa, hagain]
  simp only [hmantissa, Nat.pow_zero, Nat.div_one, dif_neg hpos.ne', Nat.cast_zero, add_zero]

/-- A number that has one more digit after rounding. -/
theorem round_eq_of_carry {e : ℤ} (hlow : 2 ^ (k + 52) ≤ m) (hhigh : m < 2 ^ (k + 53))
    (he : -1074 ≤ e + k) (hq : nearest m k = 2 ^ 53) :
    roundWithAccuracy .binary64 .positive m e .exact =
      .finite .positive (2 ^ 52) (e + k + 1) (Nat.two_pow_pos 52) := by
  have hagain : shiftToTargetExponent .binary64 (2 ^ 53) (e + k) .exact =
      (ExtendedMantissa.ofMantissaAndAccuracy (2 ^ 53) .exact >>> 1, e + k + (1 : ℕ)) :=
    shiftToTargetExponent_eq (by decide) (by decide) (he.trans (by omega))
  have hmantissa := (standsFor_shiftRight (2 ^ 53) 1).mantissa
  simp only [roundWithAccuracy, shiftToTargetExponent_eq hlow hhigh he,
    (standsFor_shiftRight m k).roundedMantissa, hq, hagain]
  simp only [hmantissa]
  rfl

/-- **The bits of a rounded number.** -/
theorem toNat_pack_round {e : ℤ} (hlow : 2 ^ (k + 52) ≤ m) (hhigh : m < 2 ^ (k + 53))
    (he : -1074 ≤ e + k) :
    (UnpackedFloat.pack .binary64 (roundWithAccuracy .binary64 .positive m e .exact)).toNat =
      bitsOf (nearest m k) (e + k) := by
  obtain ⟨hqlow, hqhigh⟩ := nearest_bounds hlow hhigh
  rcases Nat.eq_or_lt_of_le hqhigh with hq | hq
  · rw [round_eq_of_carry hlow hhigh he hq, hq, ← bitsOf_two_pow he]
    exact toNat_pack (Nat.le_refl _) (by decide) (by omega) _
  · rw [round_eq hlow hhigh he hq (Nat.lt_of_lt_of_le (by decide) hqlow)]
    exact toNat_pack hqlow hq he _

/-! ## Natural numbers -/

theorem unpackSign_packComponents (b : BitVec 11) (c : BitVec 52) :
    unpackSign (packComponents .binary64 .positive b c) = 0#1 := by
  have hlt : (packComponents .binary64 .positive b c).toNat < 2 ^ 63 := by
    rw [toNat_packComponents]
    have := b.isLt
    have := c.isLt
    omega
  apply BitVec.eq_of_toNat_eq
  simp only [unpackSign, BitVec.toNat_cast, BitVec.extractLsb_toNat]
  rw [Nat.shiftRight_eq_div_pow, Nat.div_eq_of_lt hlt]
  rfl

/-- A number whose mantissa has 53 digits comes back from its bits. -/
theorem unpack_pack {e : ℤ} (hlow : 2 ^ 52 ≤ m) (hhigh : m < 2 ^ 53) (he : -1074 ≤ e)
    (he' : e ≤ 971) (hm : 0 < m) :
    UnpackedFloat.unpack .binary64 (UnpackedFloat.pack .binary64 (.finite .positive m e hm)) =
      .finite .positive m e hm := by
  have hexponent : (BitVec.ofNat 11 ((e + 1074).toNat + 1)).toNat = (e + 1074).toNat + 1 := by
    rw [BitVec.toNat_ofNat]
    omega
  have hnotmax : BitVec.ofNat 11 ((e + 1074).toNat + 1) ≠ -1#11 := by
    intro h
    have := congrArg BitVec.toNat h
    rw [hexponent] at this
    simp at this
    omega
  have hnotmin : BitVec.ofNat 11 ((e + 1074).toNat + 1) ≠ 0#11 := by
    intro h
    have := congrArg BitVec.toNat h
    rw [hexponent] at this
    simp at this
  have hmantissa : (1#1 ++ BitVec.ofNat 52 m).toNat = m := by
    rw [BitVec.toNat_append, ← Nat.shiftLeft_add_eq_or_of_lt (BitVec.ofNat 52 m).isLt,
      BitVec.toNat_ofNat, Nat.shiftLeft_eq]
    simp
    omega
  have hback : (((e + 1074).toNat + 1 : ℕ) : ℤ) - ((Format.binary64.exponentBias : ℕ) + (52 : ℕ)) =
      e := by
    simp only [Format.exponentBias]
    omega
  rw [pack_finite hlow hhigh he hm, if_pos he']
  simp only [UnpackedFloat.unpack, unpackExponent_packComponents, unpackMantissa_packComponents,
    unpackSign_packComponents, hnotmax, hnotmin, if_false, hmantissa, hexponent, hback]
  rfl

theorem ofNat_of_lt (hn : n < 2 ^ 53) :
    Float.ofNat n = n.toUInt64.toFloat * Float.exactlyRepresentablePowersOfTen[0] := by
  simp only [Float.ofNat, OfScientific.ofScientific]
  rw [Float.ofScientific, dif_pos ⟨hn, by decide⟩]
  rfl

theorem ofNat_of_le (hn : 2 ^ 53 ≤ n) : Float.ofNat n = ⟨.ofScientific n 0⟩ := by
  simp only [Float.ofNat, OfScientific.ofScientific]
  rw [Float.ofScientific, dif_neg (by omega)]
  rfl

/-- A number with 53 zeros after it has digits enough to be rounded. -/
theorem mul_two_pow_bounds (hlow : 2 ^ k ≤ n) (hhigh : n < 2 ^ (k + 1)) :
    2 ^ (k + 1 + 52) ≤ n * 2 ^ 53 ∧ n * 2 ^ 53 < 2 ^ (k + 1 + 53) := by
  constructor
  · rw [Nat.add_assoc, Nat.pow_add]
    exact Nat.mul_le_mul_right _ hlow
  · rw [Nat.pow_add]
    exact Nat.mul_lt_mul_of_pos_right hhigh (Nat.two_pow_pos 53)

theorem ofScientific_eq (hn : 0 < n) :
    UnpackedFloat.ofScientific .binary64 n 0 =
      roundWithAccuracy .binary64 .positive (n * 2 ^ 53) (-53) .exact := by
  have hnotsmall : ¬ (0 : ℤ) < -(2 ^ Format.binary64.exponentBits + n.log2) := by
    have : (0 : ℤ) ≤ 2 ^ Format.binary64.exponentBits := by decide
    omega
  rw [UnpackedFloat.ofScientific, dif_neg hn.ne', if_neg (by decide), if_neg hnotsmall,
    if_pos (Int.le_refl 0), UnpackedFloat.mul, Nat.shiftLeft_eq, Int.toNat_zero, Nat.pow_zero,
    Nat.mul_one]
  rfl

/-- The bits of a number too great for 53 digits. -/
theorem toNat_toBits_of_le (hn : 2 ^ 53 ≤ n) (hlow : 2 ^ k ≤ n) (hhigh : n < 2 ^ (k + 1)) :
    (Float.ofNat n).toBits.toNat = bitsOf (nearest (n * 2 ^ 53) (k + 1)) (k - 52) := by
  obtain ⟨hlow', hhigh'⟩ := mul_two_pow_bounds hlow hhigh
  have hexponent : (-53 : ℤ) + (k + 1 : ℕ) = k - 52 := by omega
  rw [ofNat_of_le hn, ← hexponent, ← toNat_pack_round hlow' hhigh' (by omega),
    ← ofScientific_eq (by omega)]
  rfl

/-- The digits of a number of at most 53 digits, moved up. -/
theorem moved_bounds (hk : k ≤ 52) (hlow : 2 ^ k ≤ n) (hhigh : n < 2 ^ (k + 1)) :
    2 ^ 52 ≤ n * 2 ^ (52 - k) ∧ n * 2 ^ (52 - k) < 2 ^ 53 := by
  have hpos : 0 < 2 ^ (52 - k) := Nat.two_pow_pos _
  constructor
  · rw [show 52 = k + (52 - k) by omega, Nat.pow_add, Nat.add_sub_cancel_left]
    exact Nat.mul_le_mul_right _ hlow
  · rw [show 53 = k + 1 + (52 - k) by omega, Nat.pow_add]
    exact Nat.mul_lt_mul_of_pos_right hhigh hpos

/-- A number of at most 53 digits is kept as it is, with its digits moved up. -/
theorem ofNat_eq (hk : k ≤ 52) (hlow : 2 ^ k ≤ n) (hhigh : n < 2 ^ (k + 1))
    (hpos : 0 < n * 2 ^ (52 - k)) :
    UnpackedFloat.ofNat .binary64 n = .finite .positive (n * 2 ^ (52 - k)) (k - 52) hpos := by
  have hn : 0 < n := Nat.lt_of_lt_of_le (Nat.two_pow_pos k) hlow
  have hcompare : compare (n : ℤ) 0 = .gt := by
    rw [Int.compare_eq_gt]
    exact_mod_cast hn
  have htarget : Format.binary64.targetExponent (totalExponent n 0) = k - 52 := by
    simp only [Format.targetExponent, totalExponent, Format.minExponent, Format.mantissaBits,
      log2_eq hlow hhigh]
    omega
  have hshift : ((0 : ℤ) - (k - 52)).toNat = 52 - k := by omega
  have hexponent : (0 : ℤ) - ((52 - k : ℕ) : ℤ) = k - 52 := by omega
  obtain ⟨hlow', hhigh'⟩ := moved_bounds hk hlow hhigh
  have hround : roundWithAccuracy .binary64 .positive (n * 2 ^ (52 - k)) (k - 52) .exact =
      .finite .positive (nearest (n * 2 ^ (52 - k)) 0) (k - 52 + (0 : ℕ))
        (by rwa [nearest_zero]) :=
    round_eq hlow' hhigh' (by omega) ((nearest_zero _).trans_lt hhigh') _
  simp only [UnpackedFloat.ofNat, UnpackedFloat.ofInt, UnpackedFloat.normalize, hcompare,
    UnpackedFloat.round, decreaseExponent, Int.toNat_natCast, htarget, hshift, hexponent,
    Nat.shiftLeft_eq, hround, nearest_zero, Nat.cast_zero, add_zero]

/-- The bits of a number of at most 53 digits. -/
theorem toNat_toBits_of_lt (hn : n < 2 ^ 53) (hlow : 2 ^ k ≤ n) (hhigh : n < 2 ^ (k + 1)) :
    (Float.ofNat n).toBits.toNat = bitsOf (nearest (n * 2 ^ 53) (k + 1)) (k - 52) := by
  have hk : k ≤ 52 := by
    have hlt : 2 ^ k < 2 ^ 53 := Nat.lt_of_le_of_lt hlow hn
    exact Nat.le_of_lt_succ ((Nat.pow_lt_pow_iff_right (by decide)).1 hlt)
  obtain ⟨hlow', hhigh'⟩ := moved_bounds hk hlow hhigh
  have hpos : 0 < n * 2 ^ (52 - k) := Nat.lt_of_lt_of_le (by decide) hlow'
  have hunpack : n.toUInt64.toFloat.toModel.unpack =
      .finite .positive (n * 2 ^ (52 - k)) (k - 52) hpos := by
    have htoNat : n.toUInt64.toNat = n := UInt64.toNat_ofNat_of_lt (Nat.lt_trans hn (by decide))
    rw [← unpack_pack hlow' hhigh' (by omega) (by omega) hpos, ← ofNat_eq hk hlow hhigh hpos]
    conv_rhs => rw [← htoNat]
    rfl
  have hone : Float.exactlyRepresentablePowersOfTen[0].toModel.unpack =
      .finite .positive (2 ^ 52) (-52) (by decide) := by rfl
  have hmul : (Float.ofNat n).toBits.toNat = (UnpackedFloat.pack .binary64
      (roundWithAccuracy .binary64 .positive (n * 2 ^ (52 - k) * 2 ^ 52) (k - 52 + -52)
        .exact)).toNat := by
    rw [ofNat_of_lt hn]
    change (UnpackedFloat.pack .binary64 (UnpackedFloat.mul .binary64 _ _)).toNat = _
    rw [hunpack, hone]
    rfl
  have hmantissa : nearest (n * 2 ^ 53) (k + 1) = nearest (n * 2 ^ (52 - k) * 2 ^ 52) 52 := by
    have hmoved : n * 2 ^ 53 = n * 2 ^ (52 - k) * 2 ^ (k + 1) := by
      rw [Nat.mul_assoc, ← Nat.pow_add]
      congr 2
      omega
    have hleft := nearest_mul_two_pow (n * 2 ^ (52 - k)) 0 (k + 1)
    have hright := nearest_mul_two_pow (n * 2 ^ (52 - k)) 0 52
    rw [Nat.zero_add] at hleft hright
    rw [hmoved, hleft, hright]
  have hlow'' : 2 ^ (52 + 52) ≤ n * 2 ^ (52 - k) * 2 ^ 52 := by
    rw [Nat.pow_add]
    exact Nat.mul_le_mul_right _ hlow'
  have hhigh'' : n * 2 ^ (52 - k) * 2 ^ 52 < 2 ^ (52 + 53) := by
    rw [Nat.add_comm, Nat.pow_add]
    exact Nat.mul_lt_mul_of_pos_right hhigh' (Nat.two_pow_pos 52)
  have hexponent : (k : ℤ) - 52 + -52 + (52 : ℕ) = k - 52 := by omega
  have hround := toNat_pack_round (k := 52) (e := k - 52 + -52) hlow'' hhigh'' (by omega)
  rw [hmul, hround, hmantissa, hexponent]

/-- **The bits of a natural number.** -/
theorem toNat_toBits_ofNat (hlow : 2 ^ k ≤ n) (hhigh : n < 2 ^ (k + 1)) :
    (Float.ofNat n).toBits.toNat = bitsOf (nearest (n * 2 ^ 53) (k + 1)) (k - 52) := by
  rcases Nat.lt_or_ge n (2 ^ 53) with hn | hn
  · exact toNat_toBits_of_lt hn hlow hhigh
  · exact toNat_toBits_of_le hn hlow hhigh

theorem toNat_toBits_le (n : ℕ) : (Float.ofNat n).toBits.toNat ≤ 2047 * 2 ^ 52 := by
  rcases Nat.eq_zero_or_pos n with rfl | hn
  · decide +kernel
  · rw [toNat_toBits_ofNat (Nat.log2_self_le hn.ne') Nat.lt_log2_self, bitsOf]
    exact Nat.min_le_right _ _

theorem toNat_toBits_mono (h : m ≤ n) :
    (Float.ofNat m).toBits.toNat ≤ (Float.ofNat n).toBits.toNat := by
  rcases Nat.eq_zero_or_pos m with rfl | hm
  · have hzero : (Float.ofNat 0).toBits.toNat = 0 := by decide +kernel
    rw [hzero]
    exact Nat.zero_le _
  · have hn : 0 < n := Nat.lt_of_lt_of_le hm h
    have hmlow := Nat.log2_self_le hm.ne'
    have hmhigh : m < 2 ^ (m.log2 + 1) := Nat.lt_log2_self
    have hnlow := Nat.log2_self_le hn.ne'
    have hnhigh : n < 2 ^ (n.log2 + 1) := Nat.lt_log2_self
    obtain ⟨hmlow', hmhigh'⟩ := mul_two_pow_bounds hmlow hmhigh
    obtain ⟨hnlow', hnhigh'⟩ := mul_two_pow_bounds hnlow hnhigh
    have hmq := nearest_bounds hmlow' hmhigh'
    have hnq := nearest_bounds hnlow' hnhigh'
    have hlog : m.log2 ≤ n.log2 := by
      rw [Nat.le_log2 hn.ne']
      exact hmlow.trans h
    have hshift : ∀ k : ℕ, ((k : ℤ) - 52 + 1074).toNat = k + 1022 := by
      intro k
      omega
    rw [toNat_toBits_ofNat hmlow hmhigh, toNat_toBits_ofNat hnlow hnhigh, bitsOf, bitsOf, hshift,
      hshift]
    refine min_le_min_right _ ?_
    rcases Nat.eq_or_lt_of_le hlog with heq | hlt
    · -- with as many digits, the mantissas are in order
      rw [← heq]
      exact Nat.add_le_add_left (nearest_mono (Nat.mul_le_mul_right _ h) _) _
    · omega

end Binary64

/-! ## Keys -/

theorem totalOrderKey_ofNat (n : ℕ) :
    totalOrderKey (Float.ofNat n) = (Float.ofNat n).toBits.toNat := by
  rw [totalOrderKey]
  exact if_pos (Nat.lt_of_le_of_lt (Binary64.toNat_toBits_le n) (by decide))

/-- **The keys of natural numbers are in the order of the numbers.** -/
theorem totalOrderKey_ofNat_mono (h : m ≤ n) :
    totalOrderKey (Float.ofNat m) ≤ totalOrderKey (Float.ofNat n) := by
  rw [totalOrderKey_ofNat, totalOrderKey_ofNat]
  exact_mod_cast Binary64.toNat_toBits_mono h

end DataLineage
