import ArchiveKeeper.Number.Decimal
import ArchiveKeeper.Proofs.Number.Rounding
import Mathlib.Tactic.NormNum

namespace ArchiveKeeper.Decimal

open Double

variable {d d' : Decimal} {m n : Nat} {e : Int} {negative : Bool}

def value (d : Decimal) : ℚ := d.digits * 10 ^ d.scale

theorem value_eq_zero_iff : d.value = 0 ↔ d.digits = 0 := by
  have hpow : (10 : ℚ) ^ d.scale ≠ 0 := by positivity
  rw [value, mul_eq_zero, or_iff_left hpow]
  exact Nat.cast_eq_zero

theorem digitCount_bounds (hn : n ≠ 0) : 10 ^ (digitCount n - 1) ≤ n ∧ n < 10 ^ digitCount n := by
  have hpos : 0 < digitCount n := Nat.length_toDigits_pos
  have hiff (k : Nat) (hk : 0 < k) : digitCount n ≤ k ↔ n < 10 ^ k :=
    Nat.length_toDigits_le_iff (by omega) hk
  refine ⟨?_, (hiff _ hpos).mp le_rfl⟩
  by_cases hone : digitCount n = 1
  · rw [hone]
    omega
  · exact not_lt.mp (mt (hiff (digitCount n - 1) (by omega)).mpr (by omega))

/-- The count of digits and the scale tell the place of the leading digit. -/
theorem log_value (h : d.digits ≠ 0) : Int.log 10 d.value + 1 = d.scale + digitCount d.digits := by
  obtain ⟨hle, hlt⟩ := digitCount_bounds h
  have hcount : 0 < digitCount d.digits := Nat.length_toDigits_pos
  have hten : (10 : ℚ) ≠ 0 := by norm_num
  have hpos : 0 < d.value := by
    unfold value
    positivity
  obtain ⟨k, hk⟩ : ∃ k : Int, k = d.scale + digitCount d.digits - 1 := ⟨_, rfl⟩
  have hlow : ((10 : Nat) : ℚ) ^ k ≤ d.value := by
    have hcast : (10 : ℚ) ^ ((digitCount d.digits - 1 : Nat) : Int) ≤ d.digits := by
      exact_mod_cast hle
    have hsplit : k = ((digitCount d.digits - 1 : Nat) : Int) + d.scale := by omega
    rw [hsplit, Nat.cast_ofNat, zpow_add₀ hten, value]
    gcongr
  have hhigh : d.value < ((10 : Nat) : ℚ) ^ (k + 1) := by
    have hcast : (d.digits : ℚ) < 10 ^ (digitCount d.digits : Int) := by
      exact_mod_cast hlt
    have hsplit : k + 1 = (digitCount d.digits : Int) + d.scale := by omega
    rw [hsplit, Nat.cast_ofNat, zpow_add₀ hten, value]
    gcongr
  have hlog := log_eq_of_bounds (by omega) hpos hlow hhigh
  omega

def quotient (d : Decimal) : Nat × Nat :=
  if d.scale < 0 then (d.digits, 10 ^ (-d.scale).toNat) else (d.digits * 10 ^ d.scale.toNat, 1)

theorem quotient_den_pos (d : Decimal) : 0 < d.quotient.2 := by
  unfold quotient
  split
  · positivity
  · exact Nat.one_pos

theorem quotient_eq_value (d : Decimal) : (d.quotient.1 : ℚ) / d.quotient.2 = d.value := by
  unfold quotient value
  split
  · have hscale : d.scale = -((-d.scale).toNat : Int) := by omega
    push_cast
    conv_rhs => rw [hscale, zpow_neg, zpow_natCast]
    rw [div_eq_mul_inv]
  · have hscale : d.scale = (d.scale.toNat : Int) := by omega
    push_cast
    conv_rhs => rw [hscale, zpow_natCast]
    rw [div_one]

theorem toDouble_eq (d : Decimal) : d.toDouble =
    if d.value = 0 then .finite d.negative 0 minExponent
    else if 400 < Int.log 10 d.value + 1 then .infinite d.negative
    else if Int.log 10 d.value + 1 < -400 then .finite d.negative 0 minExponent
    else ofRatio d.negative d.quotient.1 d.quotient.2 := by
  unfold toDouble
  by_cases h : d.digits = 0
  · rw [if_pos (value_eq_zero_iff.mpr h)]
    dsimp only
    rw [if_pos h]
  · rw [if_neg (mt value_eq_zero_iff.mp h), log_value h]
    dsimp only
    rw [if_neg h]
    refine if_congr Iff.rfl rfl (if_congr Iff.rfl rfl ?_)
    unfold quotient
    split <;> rfl

/-- Decimals with the same sign and value are read as the same number. -/
theorem toDouble_congr (hsign : d.negative = d'.negative) (h : d.value = d'.value) :
    d.toDouble = d'.toDouble := by
  have hround := ofRatio_congr d'.negative (quotient_den_pos d) (quotient_den_pos d')
    (by rw [quotient_eq_value, quotient_eq_value, h])
  rw [toDouble_eq, toDouble_eq, hsign, h, hround]

theorem proper_toDouble (d : Decimal) : d.toDouble.Proper := by
  rw [toDouble_eq]
  split
  · exact inFormat_zero
  split
  · trivial
  split
  · exact inFormat_zero
  · exact proper_ofRatio _ _ (quotient_den_pos d)

theorem toDouble_of_digits_eq_zero (h : d.digits = 0) :
    d.toDouble = .finite d.negative 0 minExponent := by
  rw [toDouble_eq, if_pos (value_eq_zero_iff.mpr h)]

theorem two_pow_le_ten_pow (k : Nat) : (2 : ℚ) ^ (3 * k) ≤ 10 ^ k := by
  rw [pow_mul]
  gcongr
  norm_num

/-- The values of the format lie well within the decimals that are taken for finite numbers. -/
theorem log_bounds (h : InFormat m e) (hm : m ≠ 0) :
    -400 ≤ Int.log 10 (m * 2 ^ e : ℚ) + 1 ∧ Int.log 10 (m * 2 ^ e : ℚ) + 1 ≤ 400 := by
  have hpos : (0 : ℚ) < m * 2 ^ e := by positivity
  have hone : (1 : ℚ) ≤ m := by exact_mod_cast Nat.one_le_iff_ne_zero.mpr hm
  have hshort : (m : ℚ) < 2 ^ (53 : Int) := by exact_mod_cast h.short
  have hleast : (-1074 : Int) ≤ e := h.least
  have hgreatest : e ≤ (971 : Int) := h.greatest
  have htwo : (2 : ℚ) ^ (1200 : Int) ≤ 10 ^ (400 : Int) := two_pow_le_ten_pow 400
  have hlow : ((10 : Nat) : ℚ) ^ (-400 : Int) ≤ m * 2 ^ e := by
    calc ((10 : Nat) : ℚ) ^ (-400 : Int) = ((10 : ℚ) ^ (400 : Int))⁻¹ := zpow_neg _ _
      _ ≤ ((2 : ℚ) ^ (1200 : Int))⁻¹ := inv_anti₀ (by positivity) htwo
      _ = 2 ^ (-1200 : Int) := (zpow_neg _ _).symm
      _ ≤ 2 ^ e := zpow_le_zpow_right₀ (by norm_num) (by omega)
      _ ≤ m * 2 ^ e := le_mul_of_one_le_left (by positivity) hone
  have hhigh : (m * 2 ^ e : ℚ) < ((10 : Nat) : ℚ) ^ (400 : Int) := by
    calc (m * 2 ^ e : ℚ) < 2 ^ (53 : Int) * 2 ^ e := by gcongr
      _ = 2 ^ (53 + e) := (zpow_add₀ (by norm_num) _ _).symm
      _ ≤ 2 ^ (1200 : Int) := zpow_le_zpow_right₀ (by norm_num) (by omega)
      _ ≤ 10 ^ (400 : Int) := htwo
  have h₁ := (Int.zpow_le_iff_le_log (by omega) hpos).mp hlow
  have h₂ := (Int.lt_zpow_iff_log_lt (by omega) hpos).mp hhigh
  omega

/-- A decimal whose value the format has is read as that number. -/
theorem toDouble_of_inFormat (h : InFormat m e) (hm : m ≠ 0) (hd : d.value = m * 2 ^ e) :
    d.toDouble = .finite d.negative m e := by
  obtain ⟨hlow, hhigh⟩ := log_bounds h hm
  have hne : d.value ≠ 0 := by
    rw [hd]
    positivity
  rw [toDouble_eq, if_neg hne, hd, if_neg (by omega), if_neg (by omega)]
  exact ofRatio_of_inFormat _ h hm (quotient_den_pos d) (by rw [quotient_eq_value, hd])

theorem toDouble_signed {digits : Nat} {scale : Int}
    (h : (⟨false, digits, scale⟩ : Decimal).toDouble = .finite false m e) :
    (⟨negative, digits, scale⟩ : Decimal).toDouble = .finite negative m e := by
  -- every test of the reading is about the size, of which the sign is no part
  have hvalue : value ⟨negative, digits, scale⟩ = value ⟨false, digits, scale⟩ := rfl
  have hquotient : quotient ⟨negative, digits, scale⟩ = quotient ⟨false, digits, scale⟩ := rfl
  rw [toDouble_eq, hvalue, hquotient]
  rw [toDouble_eq] at h
  split at h
  · rename_i hzero
    rw [if_pos hzero]
    cases h
    rfl
  rename_i hzero
  rw [if_neg hzero]
  split at h
  · cases h
  rename_i hlarge
  rw [if_neg hlarge]
  split at h
  · rename_i hsmall
    rw [if_pos hsmall]
    cases h
    rfl
  · rename_i hsmall
    rw [if_neg hsmall]
    exact ofRatio_signed (quotient_den_pos _) h

theorem value_trim (fuel digits : Nat) (scale : Int) :
    (⟨negative, (trim fuel digits scale).1, (trim fuel digits scale).2⟩ : Decimal).value =
      (⟨negative, digits, scale⟩ : Decimal).value := by
  induction fuel generalizing digits scale with
  | zero => rfl
  | succ fuel ih =>
    rw [trim]
    split
    · rename_i h
      have hdigits : ((digits / 10 : Nat) : ℚ) * 10 = digits := by
        have hdvd : digits / 10 * 10 = digits := by omega
        exact_mod_cast hdvd
      rw [ih]
      simp only [value]
      rw [zpow_add_one₀ (by norm_num), mul_comm ((10 : ℚ) ^ scale), ← mul_assoc, hdigits]
    · rfl

theorem onGrid_readsBack {count digits : Nat} {scale : Int}
    (h : onGrid m e count = some (digits, scale)) :
    (⟨false, digits, scale⟩ : Decimal).toDouble = .finite false m e := by
  have hpick (near far : Nat) (scale' : Int)
      (hsome : (if (⟨false, near, scale'⟩ : Decimal).toDouble == .finite false m e
        then some (near, scale')
        else if (⟨false, far, scale'⟩ : Decimal).toDouble == .finite false m e
          then some (far, scale') else none) = some (digits, scale)) :
      (⟨false, digits, scale⟩ : Decimal).toDouble = .finite false m e := by
    simp only [beq_iff_eq] at hsome
    split at hsome
    · rename_i hnear
      cases hsome
      exact hnear
    split at hsome
    · rename_i hfar
      cases hsome
      exact hfar
    · cases hsome
  exact hpick _ _ _ h

theorem exact_readsBack (h : InFormat m e) (hm : m ≠ 0) :
    (⟨false, (exact m e).1, (exact m e).2⟩ : Decimal).toDouble = .finite false m e := by
  refine toDouble_of_inFormat h hm ?_
  unfold exact value
  split
  · -- a power of two below the point is a power of ten with as many powers of five
    have he : e = -((-e).toNat : Int) := by omega
    have hten : (10 : ℚ) = 5 * 2 := by norm_num
    have hfive : (5 : ℚ) ^ (-e).toNat ≠ 0 := by positivity
    rw [Nat.pow_eq]
    push_cast
    conv_rhs => rw [he, zpow_neg, zpow_natCast]
    conv_lhs => rw [he, zpow_neg, zpow_natCast, hten, mul_pow, neg_neg, Int.toNat_natCast]
    rw [mul_inv, mul_assoc, mul_inv_cancel_left₀ hfive]
  · have he : e = (e.toNat : Int) := by omega
    rw [Nat.shiftLeft_eq, zpow_zero, mul_one]
    push_cast
    conv_rhs => rw [he, zpow_natCast]

/-- The digits that are chosen for a number are read as that number. -/
theorem shortest_readsBack (h : InFormat m e) (hm : m ≠ 0) (negative : Bool) :
    (⟨negative, (shortest m e).1, (shortest m e).2⟩ : Decimal).toDouble =
      .finite negative m e := by
  have hfound {found : Nat × Int} (hgrid : (⟨false, found.1, found.2⟩ : Decimal).toDouble =
      .finite false m e) : (⟨negative, (trim (digitCount found.1) found.1 found.2).1,
        (trim (digitCount found.1) found.1 found.2).2⟩ : Decimal).toDouble =
          .finite negative m e := by
    apply toDouble_signed
    rw [← hgrid]
    exact toDouble_congr rfl (value_trim _ _ _)
  unfold shortest
  cases hs : (List.range 17).findSome? fun k => onGrid m e (k + 1) with
  | none => exact hfound (exact_readsBack h hm)
  | some found =>
    obtain ⟨k, -, hgrid⟩ := List.exists_of_findSome?_eq_some hs
    exact hfound (onGrid_readsBack hgrid)

end ArchiveKeeper.Decimal
