import Mathlib

/-! Rounding of exact values. Whatever mantissa and exponent present a number that fits into a double,
rounding leads to the one presentation of it whose mantissa has 53 bits. -/
namespace TextLisp.Double

open Float.Model Float.Model.UnpackedFloat

structure IsNormal (m : ℕ) (e : ℤ) : Prop where
  log2_eq : m.log2 = 52
  le : -1074 ≤ e
  ge : e ≤ 971

def scaled (m : ℕ) (e : ℤ) : ℚ :=
  m * 2 ^ e

section

variable {m M : ℕ} {e E : ℤ}

theorem IsNormal.pos (h : IsNormal m e) : 0 < m := by
  obtain rfl | hpos := Nat.eq_zero_or_pos m
  · have hlog := h.log2_eq
    simp at hlog
  · exact hpos

theorem IsNormal.bounds (h : IsNormal m e) : 2 ^ 52 ≤ m ∧ m < 2 ^ 53 :=
  (Nat.log2_eq_iff h.pos.ne').mp h.log2_eq

theorem IsNormal.targetExponent_eq (h : IsNormal m e) :
    Format.binary64.targetExponent (totalExponent m e) = e := by
  have hlog := h.log2_eq
  have hle := h.le
  simp only [Format.targetExponent, totalExponent, Format.mantissaBits, Format.minExponent, hlog]
  omega

/-- The total exponent is that of the power of two just above the value. -/
theorem scaled_bounds (hM : 0 < M) (E : ℤ) :
    2 ^ (totalExponent M E - 1) ≤ scaled M E ∧ scaled M E < 2 ^ totalExponent M E := by
  obtain ⟨hlo, hhi⟩ := (Nat.log2_eq_iff hM.ne').mp (rfl : M.log2 = M.log2)
  have hlo' : (2 : ℚ) ^ (M.log2 : ℤ) ≤ M := by exact_mod_cast hlo
  have hhi' : (M : ℚ) < 2 ^ ((M.log2 : ℤ) + 1) := by exact_mod_cast hhi
  have hpos : (0 : ℚ) < 2 ^ E := by positivity
  have hfirst : totalExponent M E - 1 = M.log2 + E := by rw [totalExponent]; ring
  have hsecond : totalExponent M E = (M.log2 + 1) + E := by rw [totalExponent]
  rw [hfirst, hsecond, zpow_add₀ two_ne_zero, zpow_add₀ two_ne_zero, scaled]
  exact ⟨mul_le_mul_of_nonneg_right hlo' hpos.le, mul_lt_mul_of_pos_right hhi' hpos⟩

/-- Presentations of one value have one total exponent. -/
theorem totalExponent_eq (hm : 0 < m) (hM : 0 < M) (h : scaled M E = scaled m e) :
    totalExponent M E = totalExponent m e := by
  obtain ⟨hlo, hhi⟩ := scaled_bounds hm e
  obtain ⟨hlo', hhi'⟩ := scaled_bounds hM E
  rw [h] at hlo' hhi'
  have hlt : totalExponent M E - 1 < totalExponent m e :=
    (zpow_lt_zpow_iff_right₀ one_lt_two).mp (hlo'.trans_lt hhi)
  have hlt' : totalExponent m e - 1 < totalExponent M E :=
    (zpow_lt_zpow_iff_right₀ one_lt_two).mp (hlo.trans_lt hhi')
  omega

/-- The presentation with the lower exponent has the mantissa of the other one, shifted. -/
theorem eq_mul_of_scaled_eq (hE : E ≤ e) (h : scaled M E = scaled m e) :
    M = m * 2 ^ (e - E).toNat := by
  have hpos : (2 : ℚ) ^ E ≠ 0 := by positivity
  have hsplit : (2 : ℚ) ^ e = 2 ^ (e - E).toNat * 2 ^ E := by
    rw [← zpow_natCast, Int.toNat_of_nonneg (by omega), ← zpow_add₀ two_ne_zero]
    ring_nf
  rw [scaled, scaled, hsplit, ← mul_assoc] at h
  exact_mod_cast mul_right_cancel₀ hpos h

/-- Bits that are zero leave no trace when they are shifted out. -/
theorem shiftRight_exact (m count : ℕ) :
    (⟨m * 2 ^ count, false, false⟩ : ExtendedMantissa) >>> count = ⟨m, false, false⟩ := by
  show count.repeat ExtendedMantissa.shiftRightOne ⟨m * 2 ^ count, false, false⟩ = _
  induction count generalizing m with
  | zero => simp [Nat.repeat]
  | succ count ih =>
    have hmore : m * 2 ^ (count + 1) = 2 * m * 2 ^ count := by ring
    rw [Nat.repeat, hmore, ih (2 * m)]
    simp [ExtendedMantissa.shiftRightOne]

/-- Moving to a higher exponent drops no bit if the value has a presentation there. -/
theorem shiftToExponent_exact (hE : E ≤ e) (h : scaled M E = scaled m e) :
    shiftToExponent M E .exact e = (⟨m, false, false⟩, e) := by
  have hM := eq_mul_of_scaled_eq hE h
  have he : E + ((e - E).toNat : ℤ) = e := by omega
  have hshift : (⟨M, false, false⟩ : ExtendedMantissa) >>> (e - E).toNat = ⟨m, false, false⟩ := by
    rw [hM, shiftRight_exact]
  rw [shiftToExponent]
  exact Prod.ext hshift he

/-- Rounding a mantissa that is not too short. -/
theorem roundWithAccuracy_exact (hnormal : IsNormal m e) (hM : 0 < M) (hE : E ≤ e)
    (h : scaled M E = scaled m e) (sign : Sign) :
    roundWithAccuracy Format.binary64 sign M E .exact = .finite sign m e hnormal.pos := by
  have htarget : Format.binary64.targetExponent (totalExponent M E) = e := by
    rw [totalExponent_eq hnormal.pos hM h, hnormal.targetExponent_eq]
  have hfirst : shiftToTargetExponent Format.binary64 M E .exact = (⟨m, false, false⟩, e) := by
    rw [shiftToTargetExponent, htarget, shiftToExponent_exact hE h]
  have hsecond : shiftToTargetExponent Format.binary64 m e .exact = (⟨m, false, false⟩, e) := by
    rw [shiftToTargetExponent, hnormal.targetExponent_eq, shiftToExponent_exact le_rfl rfl]
  have hrounded : (⟨m, false, false⟩ : ExtendedMantissa).roundedMantissa = m := rfl
  rw [roundWithAccuracy, hfirst]
  dsimp only
  rw [hrounded, hsecond]
  exact dif_neg hnormal.pos.ne'

theorem scaled_shiftLeft (M count : ℕ) (E : ℤ) :
    scaled (M <<< count) (E - count) = scaled M E := by
  rw [Nat.shiftLeft_eq, scaled, scaled, zpow_sub₀ two_ne_zero, zpow_natCast]
  push_cast
  field_simp

/-- Rounding any presentation. One with too high an exponent gets more bits first. -/
theorem round_exact (hnormal : IsNormal m e) (hM : 0 < M) (h : scaled M E = scaled m e)
    (sign : Sign) :
    UnpackedFloat.round Format.binary64 sign M E = .finite sign m e hnormal.pos := by
  have htarget : Format.binary64.targetExponent (totalExponent M E) = e := by
    rw [totalExponent_eq hnormal.pos hM h, hnormal.targetExponent_eq]
  have hvalue := (scaled_shiftLeft M (E - e).toNat E).trans h
  rw [UnpackedFloat.round, htarget, decreaseExponent]
  dsimp only
  apply roundWithAccuracy_exact hnormal
  · rw [Nat.shiftLeft_eq]
    positivity
  · omega
  · exact hvalue

/-- A double holds every mantissa of 53 bits. -/
theorem unpack_pack_finite (hnormal : IsNormal m e) (sign : Sign) :
    unpack Format.binary64 (pack Format.binary64 (.finite sign m e hnormal.pos)) =
      .finite sign m e hnormal.pos := by
  have hle := hnormal.le
  have hge := hnormal.ge
  obtain ⟨hlo, hhi⟩ := hnormal.bounds
  have hbias : Format.binary64.exponentBias = 1023 := rfl
  obtain ⟨biased, hbiased⟩ : ∃ biased : ℕ, (biased : ℤ) = e + 1075 :=
    ⟨(e + 1075).toNat, by omega⟩
  have hpack : pack Format.binary64 (.finite sign m e hnormal.pos) =
      packComponents Format.binary64 sign (BitVec.ofNat 11 biased) (BitVec.ofNat 52 m) := by
    have hfits : ¬ 2 ^ 11 ≤ biased + 1 := by omega
    have hbits : m.log2 + 1 = Format.binary64.mantissaBits := by
      rw [hnormal.log2_eq]
      rfl
    have hexponent : (e + Format.binary64.exponentBias + (52 : ℕ)).toNat = biased := by
      rw [hbias]
      omega
    rw [UnpackedFloat.pack]
    dsimp only
    rw [hexponent, if_neg hfits, if_pos hbits]
  have hmantissa : (1#1 ++ BitVec.ofNat 52 m).toNat = m := by
    rw [BitVec.toNat_append, BitVec.toNat_ofNat, BitVec.toNat_ofNat, ← Nat.shiftLeft_add_eq_or_of_lt]
    · rw [Nat.shiftLeft_eq]
      omega
    · omega
  -- The two exponents that a double keeps for something else are out of reach.
  have hinfinite : BitVec.ofNat 11 biased ≠ -1#11 := by
    intro heq
    have hnat : biased % 2 ^ 11 = 2047 := congrArg BitVec.toNat heq
    omega
  have hzero : BitVec.ofNat 11 biased ≠ 0#11 := by
    intro heq
    have hnat : biased % 2 ^ 11 = 0 := congrArg BitVec.toNat heq
    omega
  have hexponent : ((BitVec.ofNat 11 biased).toNat : ℤ) -
      (Format.binary64.exponentBias + (52 : ℕ)) = e := by
    rw [hbias, BitVec.toNat_ofNat]
    omega
  rw [hpack, UnpackedFloat.unpack]
  simp only [unpackExponent_packComponents, unpackMantissa_packComponents,
    unpackSign_packComponents, Sign.ofBitVec_toBitVec]
  rw [if_neg hinfinite, if_neg hzero, UnpackedFloat.finite.injEq]
  exact ⟨rfl, hmantissa, hexponent⟩

end

theorem log2_shiftLeft {n : ℕ} (hpos : 0 < n) (count : ℕ) :
    (n <<< count).log2 = n.log2 + count := by
  obtain ⟨hlo, hhi⟩ := (Nat.log2_eq_iff hpos.ne').mp (rfl : n.log2 = n.log2)
  rw [Nat.shiftLeft_eq, Nat.log2_eq_iff (by positivity)]
  constructor
  · rw [pow_add]
    exact Nat.mul_le_mul_right _ hlo
  · rw [add_right_comm, pow_add _ _ count]
    exact Nat.mul_lt_mul_of_pos_right hhi (by positivity)

/-- A natural number up to 2^53 has a presentation with 53 bits. -/
theorem exists_isNormal {n : ℕ} (hpos : 0 < n) (h : n ≤ 2 ^ 53) :
    ∃ m e, IsNormal m e ∧ scaled m e = n := by
  obtain rfl | hlt := h.eq_or_lt
  · refine ⟨2 ^ 52, 1, ⟨?_, ?_, ?_⟩, ?_⟩
    · exact Nat.log2_two_pow
    · decide
    · decide
    · norm_num [scaled]
  · have hlog : n.log2 < 53 := (Nat.log2_lt hpos.ne').mpr hlt
    refine ⟨n <<< (52 - n.log2), 0 - (52 - n.log2 : ℕ), ⟨?_, ?_, ?_⟩, ?_⟩
    · rw [log2_shiftLeft hpos]
      omega
    · omega
    · omega
    · rw [scaled_shiftLeft]
      simp [scaled]

end TextLisp.Double
