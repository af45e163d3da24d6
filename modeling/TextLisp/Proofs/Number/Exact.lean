import TextLisp.Proofs.Number.Rounding

namespace TextLisp.Double

open Float.Model Float.Model.UnpackedFloat

def value? (x : Float) : Option ℚ :=
  match x.toModel.unpack with
  | .finite .positive m e _ => some (scaled m e)
  | .finite .negative m e _ => some (-scaled m e)
  | .zero _ => some 0
  | .infinity _ | .notANumber => none

inductive IsExact : UnpackedFloat → ℕ → Prop
  | zero : IsExact (.zero .positive) 0
  | finite {m n : ℕ} {e : ℤ} (hnormal : IsNormal m e) (hvalue : scaled m e = n) :
      IsExact (.finite .positive m e hnormal.pos) n

theorem scaled_zero (E : ℤ) : scaled 0 E = 0 := by
  simp [scaled]

theorem scaled_pos {M : ℕ} (hM : 0 < M) (E : ℤ) : 0 < scaled M E := by
  rw [scaled]
  positivity

theorem scaled_mul (m₁ m₂ : ℕ) (e₁ e₂ : ℤ) :
    scaled (m₁ * m₂) (e₁ + e₂) = scaled m₁ e₁ * scaled m₂ e₂ := by
  rw [scaled, scaled, scaled, zpow_add₀ two_ne_zero]
  push_cast
  ring

theorem scaled_add (m₁ m₂ : ℕ) (e : ℤ) : scaled (m₁ + m₂) e = scaled m₁ e + scaled m₂ e := by
  rw [scaled, scaled, scaled]
  push_cast
  ring

theorem scaled_decreased {m : ℕ} {e E : ℤ} (h : E ≤ e) :
    scaled (m <<< (e - E).toNat) E = scaled m e := by
  have hE : e - (e - E).toNat = E := by omega
  calc
    scaled (m <<< (e - E).toNat) E = scaled (m <<< (e - E).toNat) (e - (e - E).toNat) := by rw [hE]
    _ = scaled m e := scaled_shiftLeft m (e - E).toNat e

section

variable {M n : ℕ} {E : ℤ}

theorem pos_of_scaled_eq (hM : 0 < M) (hvalue : scaled M E = n) : 0 < n := by
  have hpos := scaled_pos hM E
  rw [hvalue] at hpos
  exact_mod_cast hpos

/-- A natural number that is presented somehow is rounded to itself. -/
theorem isExact_normalize (hvalue : scaled M E = n) (hn : n ≤ 2 ^ 53) :
    IsExact (UnpackedFloat.normalize Format.binary64 (M : ℤ) E .positive) n := by
  obtain rfl | hM := Nat.eq_zero_or_pos M
  · have hzero : (n : ℚ) = 0 := by rw [← hvalue, scaled_zero]
    obtain rfl : n = 0 := by exact_mod_cast hzero
    exact .zero
  · obtain ⟨m, e, hnormal, hsame⟩ := exists_isNormal (pos_of_scaled_eq hM hvalue) hn
    have hround := round_exact hnormal hM (hvalue.trans hsame.symm) .positive
    have hgt : compare (M : ℤ) 0 = .gt := by
      rw [compare_gt_iff_gt]
      omega
    rw [UnpackedFloat.normalize, hgt]
    dsimp only
    rw [Int.toNat_natCast, hround]
    exact .finite hnormal hsame

/-- A mantissa of 53 bits or more is only ever shifted down. -/
theorem isExact_roundWithAccuracy (hM : 2 ^ 52 ≤ M) (hvalue : scaled M E = n) (hn : n ≤ 2 ^ 53) :
    IsExact (roundWithAccuracy Format.binary64 .positive M E .exact) n := by
  have hpos : 0 < M := by omega
  obtain ⟨m, e, hnormal, hsame⟩ := exists_isNormal (pos_of_scaled_eq hpos hvalue) hn
  have hvalue' : scaled M E = scaled m e := hvalue.trans hsame.symm
  have hE : E ≤ e := by
    have htotal := totalExponent_eq hnormal.pos hpos hvalue'
    have hlog : 52 ≤ M.log2 := (Nat.le_log2 hpos.ne').mpr hM
    rw [totalExponent, totalExponent, hnormal.log2_eq] at htotal
    omega
  rw [roundWithAccuracy_exact hnormal hpos hE hvalue' .positive]
  exact .finite hnormal hsame

end

section

variable {u v : UnpackedFloat} {a b : ℕ}

theorem mul_finite (spec : Format) (s₁ s₂ : Sign) (m₁ m₂ : ℕ) (e₁ e₂ : ℤ) (h₁ : 0 < m₁)
    (h₂ : 0 < m₂) : UnpackedFloat.mul spec (.finite s₁ m₁ e₁ h₁) (.finite s₂ m₂ e₂ h₂) =
      roundWithAccuracy spec (s₁ * s₂) (m₁ * m₂) (e₁ + e₂) .exact :=
  rfl

/-- A product that is not above 2^53 is exact. -/
theorem IsExact.mul (hu : IsExact u a) (hv : IsExact v b) (h : a * b ≤ 2 ^ 53) :
    IsExact (UnpackedFloat.mul Format.binary64 u v) (a * b) := by
  cases hu with
  | zero =>
    rw [Nat.zero_mul]
    cases hv <;> exact .zero
  | @finite m₁ _ e₁ hnormal₁ hvalue₁ =>
    cases hv with
    | zero => exact .zero
    | @finite m₂ _ e₂ hnormal₂ hvalue₂ =>
      have hvalue : scaled (m₁ * m₂) (e₁ + e₂) = (a * b : ℕ) := by
        rw [scaled_mul, hvalue₁, hvalue₂, Nat.cast_mul]
      -- A product is rounded as it is, so its mantissa has to be long enough.
      have hbits : 2 ^ 52 ≤ m₁ * m₂ :=
        hnormal₁.bounds.1.trans (Nat.le_mul_of_pos_right m₁ hnormal₂.pos)
      rw [mul_finite]
      exact isExact_roundWithAccuracy hbits hvalue h

/-- A sum that is not above 2^53 is exact. -/
theorem IsExact.add (hu : IsExact u a) (hv : IsExact v b) (h : a + b ≤ 2 ^ 53) :
    IsExact (UnpackedFloat.add Format.binary64 u v) (a + b) := by
  cases hu with
  | zero =>
    rw [Nat.zero_add]
    cases hv with
    | zero => exact .zero
    | finite hnormal hvalue => exact .finite hnormal hvalue
  | @finite m₁ _ e₁ hnormal₁ hvalue₁ =>
    cases hv with
    | zero => exact .finite hnormal₁ hvalue₁
    | @finite m₂ _ e₂ hnormal₂ hvalue₂ =>
      -- The mantissas are added at the lower one of the exponents, where no bit of either is lost.
      have hvalue : scaled (m₁ <<< (e₁ - min e₁ e₂).toNat + m₂ <<< (e₂ - min e₁ e₂).toNat)
          (min e₁ e₂) = (a + b : ℕ) := by
        rw [scaled_add, scaled_decreased (min_le_left e₁ e₂), scaled_decreased (min_le_right e₁ e₂),
          hvalue₁, hvalue₂, Nat.cast_add]
      have hsum := isExact_normalize hvalue h
      rw [Nat.cast_add] at hsum
      exact hsum

theorem IsExact.unpack_pack (hu : IsExact u a) :
    UnpackedFloat.unpack Format.binary64 (UnpackedFloat.pack Format.binary64 u) = u := by
  cases hu with
  | zero => exact unpack_packedZero
  | finite hnormal => exact unpack_pack_finite hnormal .positive

/-- No two presentations with 53 bits are of one number. -/
theorem IsExact.eq (hu : IsExact u a) (hv : IsExact v a) : u = v := by
  cases hu with
  | zero =>
    cases hv with
    | zero => rfl
    | finite hnormal hvalue => exact absurd (pos_of_scaled_eq hnormal.pos hvalue) (lt_irrefl 0)
  | @finite m₁ _ e₁ hnormal₁ hvalue₁ =>
    cases hv with
    | zero => exact absurd (pos_of_scaled_eq hnormal₁.pos hvalue₁) (lt_irrefl 0)
    | @finite m₂ _ e₂ hnormal₂ hvalue₂ =>
      have hvalue : scaled m₁ e₁ = scaled m₂ e₂ := hvalue₁.trans hvalue₂.symm
      -- Mantissas of one length and values of one size leave no choice of the exponent.
      have htotal := totalExponent_eq hnormal₂.pos hnormal₁.pos hvalue
      rw [totalExponent, totalExponent, hnormal₁.log2_eq, hnormal₂.log2_eq] at htotal
      obtain rfl : e₁ = e₂ := by omega
      obtain rfl : m₁ = m₂ := by simpa using eq_mul_of_scaled_eq le_rfl hvalue
      rfl

end

/-- The double is this natural number. Zero has no sign. -/
def IsNat (x : Float) (n : ℕ) : Prop :=
  IsExact x.toModel.unpack n

section

variable {x y : Float} {a b n : ℕ}

theorem isNat_of_pack {u : UnpackedFloat} (h : IsExact u n) :
    IsNat (.ofModel (Float.Model.pack u)) n := by
  have hunpack : (Float.Model.pack u).unpack = u := h.unpack_pack
  rw [IsNat, hunpack]
  exact h

/-- Doubles that are natural numbers have the product of those, up to 2^53. -/
theorem IsNat.mul (hx : IsNat x a) (hy : IsNat y b) (h : a * b ≤ 2 ^ 53) :
    IsNat (x * y) (a * b) :=
  isNat_of_pack (IsExact.mul hx hy h)

/-- Doubles that are natural numbers have the sum of those, up to 2^53. -/
theorem IsNat.add (hx : IsNat x a) (hy : IsNat y b) (h : a + b ≤ 2 ^ 53) :
    IsNat (x + y) (a + b) :=
  isNat_of_pack (IsExact.add hx hy h)

/-- A natural number is one double only. -/
theorem IsNat.eq (hx : IsNat x n) (hy : IsNat y n) : x = y := by
  have hunpack : x.toModel.unpack = y.toModel.unpack := IsExact.eq hx hy
  rw [← Float.toBits_inj, ← UInt64.toBitVec_inj]
  exact (unpack_inj_of_valid x.toModel.valid y.toModel.valid (by decide)).mp hunpack

theorem IsNat.value?_eq (h : IsNat x n) : value? x = some (n : ℚ) := by
  unfold IsNat at h
  unfold value?
  generalize x.toModel.unpack = u at h ⊢
  cases h with
  | zero => simp
  | finite _ hvalue => rw [← hvalue]

/-- Negation turns the sign and nothing else. -/
theorem IsNat.value?_neg (h : IsNat x n) : value? (-x) = some (-n : ℚ) := by
  have hneg : (-x).toModel.unpack = UnpackedFloat.unpack Format.binary64
      (UnpackedFloat.pack Format.binary64 x.toModel.unpack.neg) := rfl
  unfold IsNat at h
  unfold value?
  rw [hneg]
  generalize x.toModel.unpack = u at h ⊢
  cases h with
  | zero =>
    rw [UnpackedFloat.neg, UnpackedFloat.pack, unpack_packedZero]
    simp
  | finite hnormal hvalue =>
    rw [UnpackedFloat.neg, unpack_pack_finite hnormal, ← hvalue]

theorem isNat_one : IsNat (Float.ofBits 0x3FF0000000000000) 1 := by
  have hunpack : (Float.ofBits 0x3FF0000000000000).toModel.unpack =
      .finite .positive (2 ^ 52) (-52) (by decide) := by rfl
  have hnormal : IsNormal (2 ^ 52) (-52) := ⟨Nat.log2_two_pow, by decide, by decide⟩
  have hvalue : scaled (2 ^ 52) (-52) = (1 : ℕ) := by norm_num [scaled]
  rw [IsNat, hunpack]
  exact .finite hnormal hvalue

theorem isNat_ofUInt64 {k : UInt64} (h : k.toNat ≤ 2 ^ 53) : IsNat k.toFloat k.toNat := by
  have hvalue : scaled k.toNat 0 = k.toNat := by simp [scaled]
  exact isNat_of_pack (isExact_normalize hvalue h)

theorem ofNat_of_lt (h : n < 2 ^ 53) :
    Float.ofNat n = n.toUInt64.toFloat * Float.ofBits 0x3FF0000000000000 :=
  dif_pos ⟨h, Nat.zero_le 22⟩

theorem ofNat_of_not_lt (h : ¬ n < 2 ^ 53) : Float.ofNat n =
    .ofModel (Float.Model.pack (UnpackedFloat.ofScientific Format.binary64 n 0)) :=
  dif_neg fun hfast => h hfast.1

/-- The numbers below 2^53 are converted as machine integers, and 2^53 itself as a decimal. -/
theorem isNat_ofNat (h : n ≤ 2 ^ 53) : IsNat (Float.ofNat n) n := by
  by_cases hlt : n < 2 ^ 53
  · have hword : n.toUInt64.toNat = n := UInt64.toNat_ofNat_of_lt' (hlt.trans (by decide))
    have hfloat : IsNat n.toUInt64.toFloat n := by
      have hword' := isNat_ofUInt64 (hword.le.trans h)
      rwa [hword] at hword'
    have hproduct := hfloat.mul isNat_one (by rwa [Nat.mul_one])
    rwa [← ofNat_of_lt hlt, Nat.mul_one] at hproduct
  · have hn : n ≠ 0 := by omega
    have hlarge : ¬ (0 : ℤ) < -(2 ^ 11 + (n.log2 : ℤ)) := by omega
    have hmantissa : Format.binary64.mantissaBits = 53 := rfl
    -- The decimal is first made 53 bits longer, so that rounding only has to shift down.
    have hround : UnpackedFloat.ofScientific Format.binary64 n 0 =
        roundWithAccuracy Format.binary64 .positive (n <<< 53) (0 - (53 : ℕ)) .exact := by
      rw [UnpackedFloat.ofScientific, dif_neg hn, if_neg (by decide), if_neg hlarge, if_pos le_rfl,
        mul_finite, Int.toNat_zero, pow_zero, Nat.mul_one, add_zero, hmantissa, zero_sub]
      rfl
    have hvalue : scaled (n <<< 53) (0 - (53 : ℕ)) = n := by
      rw [scaled_shiftLeft]
      simp [scaled]
    have hbits : 2 ^ 52 ≤ n <<< 53 := by
      rw [Nat.shiftLeft_eq]
      omega
    rw [ofNat_of_not_lt hlt, hround]
    exact isNat_of_pack (isExact_roundWithAccuracy hbits hvalue h)

end

end TextLisp.Double
