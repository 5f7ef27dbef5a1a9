import ArchiveKeeper.Number.Double
import Mathlib.Algebra.Order.Field.Power
import Mathlib.Data.Int.Log
import Mathlib.Data.Rat.Floor
import Mathlib.Tactic.Positivity
import Mathlib.Tactic.Ring

namespace ArchiveKeeper.Double

variable {num den num' den' m : Nat} {e shift : Int} {negative : Bool}

/-- A significand and an exponent of the format, in the only form that it has for a value. -/
structure InFormat (m : Nat) (e : Int) : Prop where
  short : m < 2 ^ 53
  least : minExponent ≤ e
  greatest : e ≤ maxExponent
  normal : m < 2 ^ 52 → e = minExponent

/-- A number as it is read: a finite one of the format, or an infinity. -/
def Proper : Double → Prop
  | .nan => False
  | .infinite _ => True
  | .finite _ m e => InFormat m e

theorem inFormat_zero : InFormat 0 minExponent := ⟨by omega, by decide, by decide, fun _ => rfl⟩

section Scaled

theorem scaled_den_pos (hden : 0 < den) : 0 < (scaled num den shift).2 := by
  unfold scaled
  split
  · exact hden
  · rw [Nat.shiftLeft_eq]
    positivity

theorem scaled_quotient (num den : Nat) (shift : Int) :
    ((scaled num den shift).1 : ℚ) / (scaled num den shift).2 = num / den / 2 ^ shift := by
  unfold scaled
  split
  · have hshift : shift = -((-shift).toNat : Int) := by omega
    rw [Nat.shiftLeft_eq]
    push_cast
    conv_rhs => rw [hshift, zpow_neg, zpow_natCast, div_inv_eq_mul]
    ring
  · have hshift : shift = (shift.toNat : Int) := by omega
    rw [Nat.shiftLeft_eq]
    push_cast
    conv_rhs => rw [hshift, zpow_natCast]
    rw [div_div]

end Scaled

section Log

theorem log_eq_of_bounds {b : Nat} {q : ℚ} (hb : 1 < b) (hq : 0 < q) (hle : (b : ℚ) ^ e ≤ q)
    (hlt : q < (b : ℚ) ^ (e + 1)) : Int.log b q = e := by
  have h₁ : e ≤ Int.log b q := (Int.zpow_le_iff_le_log hb hq).mp hle
  have h₂ : Int.log b q < e + 1 := (Int.lt_zpow_iff_log_lt hb hq).mp hlt
  omega

theorem floorLog2_eq_log (hnum : 0 < num) (hden : 0 < den) :
    floorLog2 num den = Int.log 2 (num / den : ℚ) := by
  have hq : (0 : ℚ) < num / den := by positivity
  have hd : (0 : ℚ) < den := by positivity
  have hnum₁ : (2 : ℚ) ^ (Nat.log2 num : Int) ≤ num := by
    exact_mod_cast Nat.log2_self_le hnum.ne'
  have hnum₂ : (num : ℚ) < 2 ^ (Nat.log2 num + 1 : Int) := by
    exact_mod_cast Nat.lt_log2_self
  have hden₁ : (2 : ℚ) ^ (Nat.log2 den : Int) ≤ den := by
    exact_mod_cast Nat.log2_self_le hden.ne'
  have hden₂ : (den : ℚ) < 2 ^ (Nat.log2 den + 1 : Int) := by
    exact_mod_cast Nat.lt_log2_self
  have htwo : (2 : ℚ) ≠ 0 := by norm_num
  obtain ⟨k, hk⟩ : ∃ k : Int, k = Nat.log2 num - Nat.log2 den := ⟨_, rfl⟩
  -- the quotient lies between two powers of two next but one to each other
  have hlow : (2 : ℚ) ^ (k - 1) ≤ num / den := by
    rw [le_div_iff₀ hd]
    calc (2 : ℚ) ^ (k - 1) * den ≤ 2 ^ (k - 1) * 2 ^ (Nat.log2 den + 1 : Int) := by gcongr
      _ = 2 ^ (Nat.log2 num : Int) := by rw [← zpow_add₀ htwo]; congr 1; omega
      _ ≤ num := hnum₁
  have hhigh : (num / den : ℚ) < 2 ^ (k + 1) := by
    rw [div_lt_iff₀ hd]
    calc (num : ℚ) < 2 ^ (Nat.log2 num + 1 : Int) := hnum₂
      _ = 2 ^ (k + 1) * 2 ^ (Nat.log2 den : Int) := by rw [← zpow_add₀ htwo]; congr 1; omega
      _ ≤ 2 ^ (k + 1) * den := by gcongr
  -- and the comparison tells on which side of the power between them
  have hside : (scaled num den k).2 ≤ (scaled num den k).1 ↔ (2 : ℚ) ^ k ≤ num / den := by
    have hpos : (0 : ℚ) < (scaled num den k).2 := by exact_mod_cast scaled_den_pos hden
    have hpow : (0 : ℚ) < 2 ^ k := by positivity
    rw [← Nat.cast_le (α := ℚ), ← one_le_div hpos, scaled_quotient, one_le_div hpow]
  unfold floorLog2
  simp only [← hk]
  symm
  split
  · rename_i h
    exact log_eq_of_bounds (by omega) hq (hside.mp h) hhigh
  · rename_i h
    refine log_eq_of_bounds (by omega) hq hlow ?_
    rw [sub_add_cancel]
    exact not_le.mp fun hle => h (hside.mpr hle)

end Log

section Half

theorem roundHalfEven_mul {k : Nat} (hk : 0 < k) (num den : Nat) :
    roundHalfEven (num * k) (den * k) = roundHalfEven num den := by
  have hcmp (a b : Nat) : a * k < b * k ↔ a < b := Nat.mul_lt_mul_right hk
  unfold roundHalfEven
  simp only [Nat.mul_div_mul_right _ _ hk, Nat.mul_mod_mul_right, ← Nat.mul_assoc, hcmp]

theorem roundHalfEven_congr (hden : 0 < den) (hden' : 0 < den')
    (h : (num : ℚ) / den = num' / den') : roundHalfEven num den = roundHalfEven num' den' := by
  have hd : (den : ℚ) ≠ 0 := by positivity
  have hd' : (den' : ℚ) ≠ 0 := by positivity
  have hcross : num * den' = num' * den := by
    rw [div_eq_div_iff hd hd'] at h
    exact_mod_cast h
  rw [← roundHalfEven_mul hden' num den, ← roundHalfEven_mul hden num' den', hcross,
    Nat.mul_comm den den']

theorem roundHalfEven_bounds (num den : Nat) :
    num / den ≤ roundHalfEven num den ∧ roundHalfEven num den ≤ num / den + 1 := by
  unfold roundHalfEven
  dsimp only
  split
  · omega
  · split
    · omega
    · split <;> omega

theorem roundHalfEven_of_eq (hden : 0 < den) (h : (num : ℚ) / den = m) :
    roundHalfEven num den = m := by
  have hone : roundHalfEven m 1 = m := by
    unfold roundHalfEven
    rw [Nat.mod_one, Nat.div_one]
    rfl
  rw [← hone]
  exact roundHalfEven_congr hden Nat.one_pos (by rw [h, Nat.cast_one, div_one])

end Half

/-- The exponent that the format gives to a value: that of its leading place, with 53 places below,
unless the least one is greater. -/
def exponentFor (q : ℚ) : Int := max (Int.log 2 q - 52) minExponent

/-- What a significand and its exponent amount to, if the significand may have grown by a place. -/
def carried (negative : Bool) (m : Nat) (e : Int) : Double :=
  if m = 2 ^ 53 then
    if maxExponent < e + 1 then .infinite negative else .finite negative (2 ^ 52) (e + 1)
  else if maxExponent < e then .infinite negative else .finite negative m e

theorem ofRatio_eq_carried (negative : Bool) (hnum : num ≠ 0) (hden : 0 < den) :
    ofRatio negative num den =
      carried negative (roundHalfEven (scaled num den (exponentFor (num / den))).1
        (scaled num den (exponentFor (num / den))).2) (exponentFor (num / den)) := by
  have hlog := floorLog2_eq_log (Nat.pos_of_ne_zero hnum) hden
  unfold ofRatio
  rw [if_neg hnum, hlog]
  unfold carried
  simp only [Nat.one_shiftLeft]
  unfold exponentFor
  split <;> rfl

/-- Quotients with the same value are rounded to the same. -/
theorem ofRatio_congr (negative : Bool) (hden : 0 < den) (hden' : 0 < den')
    (h : (num : ℚ) / den = num' / den') : ofRatio negative num den = ofRatio negative num' den' := by
  have hd : (den : ℚ) ≠ 0 := by positivity
  have hd' : (den' : ℚ) ≠ 0 := by positivity
  have hzero : num = 0 ↔ num' = 0 := by
    rw [div_eq_div_iff hd hd'] at h
    constructor
    · rintro rfl
      rw [Nat.cast_zero, zero_mul, zero_eq_mul, or_iff_left hd] at h
      exact_mod_cast h
    · rintro rfl
      rw [Nat.cast_zero, zero_mul, mul_eq_zero, or_iff_left hd'] at h
      exact_mod_cast h
  by_cases hnum : num = 0
  · rw [hnum, hzero.mp hnum, ofRatio, ofRatio, if_pos rfl, if_pos rfl]
  · rw [ofRatio_eq_carried negative hnum hden,
      ofRatio_eq_carried negative (mt hzero.mpr hnum) hden', h]
    congr 1
    apply roundHalfEven_congr (scaled_den_pos hden) (scaled_den_pos hden')
    rw [scaled_quotient, scaled_quotient, h]

theorem exponentFor_of_inFormat (h : InFormat m e) (hm : m ≠ 0) :
    exponentFor (m * 2 ^ e : ℚ) = e := by
  have hpos : (0 : ℚ) < m * 2 ^ e := by positivity
  have htwo : (2 : ℚ) ≠ 0 := by norm_num
  have hshort : (m : ℚ) < 2 ^ (53 : Int) := by exact_mod_cast h.short
  have hlt : (m * 2 ^ e : ℚ) < 2 ^ (e + 53) := by
    rw [zpow_add₀ htwo, mul_comm]
    gcongr
  have hlog : Int.log 2 (m * 2 ^ e : ℚ) < e + 53 := (Int.lt_zpow_iff_log_lt (by omega) hpos).mp hlt
  have hleast := h.least
  unfold exponentFor
  by_cases hnormal : m < 2 ^ 52
  · have he := h.normal hnormal
    omega
  · have hlong : (2 : ℚ) ^ (52 : Int) ≤ m := by exact_mod_cast not_lt.mp hnormal
    have hle : (2 : ℚ) ^ (e + 52) ≤ m * 2 ^ e := by
      rw [zpow_add₀ htwo, mul_comm]
      gcongr
    have hlog' : e + 52 ≤ Int.log 2 (m * 2 ^ e : ℚ) :=
      (Int.zpow_le_iff_le_log (by omega) hpos).mp hle
    omega

/-- A value that the format has stays what it is. -/
theorem ofRatio_of_inFormat (negative : Bool) (h : InFormat m e) (hm : m ≠ 0) (hden : 0 < den)
    (hq : (num : ℚ) / den = m * 2 ^ e) : ofRatio negative num den = .finite negative m e := by
  have hnum : num ≠ 0 := by
    rintro rfl
    have hpos : (0 : ℚ) < m * 2 ^ e := by positivity
    rw [Nat.cast_zero, zero_div] at hq
    exact hpos.ne hq
  have hpow : (2 : ℚ) ^ e ≠ 0 := by positivity
  have hround : roundHalfEven (scaled num den e).1 (scaled num den e).2 = m := by
    apply roundHalfEven_of_eq (scaled_den_pos hden)
    rw [scaled_quotient, hq, mul_div_assoc, div_self hpow, mul_one]
  rw [ofRatio_eq_carried negative hnum hden, hq, exponentFor_of_inFormat h hm, hround, carried,
    if_neg h.short.ne, if_neg (not_lt.mpr h.greatest)]

theorem scaled_short (q : ℚ) : q / 2 ^ exponentFor q < 2 ^ (53 : Int) := by
  have hpow : (0 : ℚ) < 2 ^ exponentFor q := by positivity
  have hlog : q < 2 ^ (Int.log 2 q + 1) := Int.lt_zpow_succ_log_self (b := 2) (by omega) q
  have hexp : Int.log 2 q + 1 ≤ 53 + exponentFor q := by
    unfold exponentFor
    omega
  rw [div_lt_iff₀ hpow, ← zpow_add₀ (by norm_num)]
  exact hlog.trans_le (zpow_le_zpow_right₀ (by norm_num) hexp)

theorem scaled_normal {q : ℚ} (hq : 0 < q) (hne : exponentFor q ≠ minExponent) :
    2 ^ (52 : Int) ≤ q / 2 ^ exponentFor q := by
  have hpow : (0 : ℚ) < 2 ^ exponentFor q := by positivity
  have hlog : (2 : ℚ) ^ Int.log 2 q ≤ q := Int.zpow_log_le_self (b := 2) (by omega) hq
  have hexp : 52 + exponentFor q = Int.log 2 q := by
    unfold exponentFor at hne ⊢
    omega
  rw [le_div_iff₀ hpow, ← zpow_add₀ (by norm_num), hexp]
  exact hlog

theorem proper_carried (hleast : minExponent ≤ e) (hm : m ≤ 2 ^ 53)
    (hnormal : m < 2 ^ 52 → e = minExponent) : (carried negative m e).Proper := by
  unfold carried
  split
  · split
    · trivial
    · exact ⟨by omega, by omega, by omega, by omega⟩
  · split
    · trivial
    · exact ⟨by omega, hleast, by omega, hnormal⟩

theorem proper_ofRatio (negative : Bool) (num : Nat) (hden : 0 < den) :
    (ofRatio negative num den).Proper := by
  by_cases hnum : num = 0
  · rw [ofRatio, if_pos hnum]
    exact inFormat_zero
  rw [ofRatio_eq_carried negative hnum hden]
  obtain ⟨q, hq⟩ : ∃ q : ℚ, q = num / den := ⟨_, rfl⟩
  have hpos : 0 < q := by
    rw [hq]
    positivity
  have hd : 0 < (scaled num den (exponentFor q)).2 := scaled_den_pos hden
  have hd' : (0 : ℚ) < (scaled num den (exponentFor q)).2 := by exact_mod_cast hd
  have hscaled := scaled_quotient num den (exponentFor q)
  rw [← hq] at hscaled ⊢
  have hshort : (scaled num den (exponentFor q)).1 / (scaled num den (exponentFor q)).2 < 2 ^ 53 := by
    have h := scaled_short q
    rw [← hscaled, div_lt_iff₀ hd'] at h
    rw [Nat.div_lt_iff_lt_mul hd]
    exact_mod_cast h
  obtain ⟨hlow, hhigh⟩ := roundHalfEven_bounds (scaled num den (exponentFor q)).1
    (scaled num den (exponentFor q)).2
  apply proper_carried (le_max_right _ _) (by omega)
  intro hsmall
  -- with an exponent above the least one the quotient has all its bits
  by_contra hne
  have h := scaled_normal hpos hne
  rw [← hscaled, le_div_iff₀ hd'] at h
  have hnormal : 2 ^ 52 ≤
      (scaled num den (exponentFor q)).1 / (scaled num den (exponentFor q)).2 := by
    rw [Nat.le_div_iff_mul_le hd]
    exact_mod_cast h
  omega

theorem carried_signed (h : carried false m e = .finite false num shift) :
    carried negative m e = .finite negative num shift := by
  unfold carried at h ⊢
  split at h <;> rename_i hfull <;> split at h <;> rename_i hgreatest
  · cases h
  · cases h
    rw [if_pos hfull, if_neg hgreatest]
  · cases h
  · cases h
    rw [if_neg hfull, if_neg hgreatest]

/-- The sign of a quotient is the sign of what it is rounded to. -/
theorem ofRatio_signed (hden : 0 < den) (h : ofRatio false num den = .finite false m e) :
    ofRatio negative num den = .finite negative m e := by
  by_cases hnum : num = 0
  · rw [ofRatio, if_pos hnum] at h ⊢
    cases h
    rfl
  · rw [ofRatio_eq_carried _ hnum hden] at h ⊢
    exact carried_signed h

end ArchiveKeeper.Double
