import ArchiveKeeper.Proofs.Number.Rounding

namespace ArchiveKeeper.Double

variable {x : Double} {m : Nat} {e : Int}

def value? : Double → Option ℚ
  | .finite negative m e => some (if negative then -(m * 2 ^ e) else m * 2 ^ e)
  | _ => none

theorem ratio_den_pos (m : Nat) (e : Int) : 0 < (ratio m e).2 := by
  unfold ratio
  split
  · rw [Nat.shiftLeft_eq]
    positivity
  · exact Nat.one_pos

theorem ratio_quotient (m : Nat) (e : Int) : ((ratio m e).1 : ℚ) / (ratio m e).2 = m * 2 ^ e := by
  unfold ratio
  split
  · have he : e = -((-e).toNat : Int) := by omega
    rw [Nat.shiftLeft_eq]
    push_cast
    conv_rhs => rw [he, zpow_neg, zpow_natCast]
    rw [one_mul]
    rfl
  · have he : e = (e.toNat : Int) := by omega
    rw [Nat.shiftLeft_eq]
    push_cast
    conv_rhs => rw [he, zpow_natCast]
    rw [div_one]

theorem ratio_mod_eq_zero_iff (m : Nat) (e : Int) :
    (ratio m e).1 % (ratio m e).2 = 0 ↔ ∃ k : Nat, (m : ℚ) * 2 ^ e = k := by
  have hpos : ((ratio m e).2 : ℚ) ≠ 0 := by
    have h := ratio_den_pos m e
    positivity
  rw [← ratio_quotient]
  constructor
  · intro h
    refine ⟨(ratio m e).1 / (ratio m e).2, ?_⟩
    rw [div_eq_iff hpos]
    exact_mod_cast (Nat.div_mul_cancel (Nat.dvd_of_mod_eq_zero h)).symm
  · rintro ⟨k, hk⟩
    rw [div_eq_iff hpos] at hk
    have hmul : (ratio m e).1 = k * (ratio m e).2 := by exact_mod_cast hk
    rw [hmul, Nat.mul_mod_left]

theorem isInteger_finite (negative : Bool) (m : Nat) (e : Int) :
    (finite negative m e).isInteger ↔ ∃ k : Nat, (m : ℚ) * 2 ^ e = k := by
  rw [← ratio_mod_eq_zero_iff]
  unfold isInteger toInt?
  dsimp only
  split <;> simp_all

def Counts (x : Double) : Prop := ∃ k : Nat, x.value? = some (k : ℚ)

theorem counts_iff (x : Double) : x.Counts ↔ x.isInteger ∧ x.isNegative = false := by
  cases x with
  | nan => simp [Counts, value?, isInteger, toInt?]
  | infinite negative => simp [Counts, value?, isInteger, toInt?]
  | finite negative m e =>
    have hscale : (0 : ℚ) < 2 ^ e := by positivity
    rw [isInteger_finite]
    simp only [Counts, value?, Option.some.injEq, isNegative, Bool.and_eq_false_iff,
      decide_eq_false_iff_not, not_not]
    cases negative with
    | false => simp
    | true =>
      simp only [if_true, Bool.true_eq_false, false_or]
      constructor
      · -- below zero there is no natural number
        rintro ⟨k, hk⟩
        have hm : (m : ℚ) * 2 ^ e = 0 := by
          have hk' : (0 : ℚ) ≤ k := by positivity
          have hm' : (0 : ℚ) ≤ m * 2 ^ e := by positivity
          linarith
        have hzero : m = 0 := by
          rcases mul_eq_zero.mp hm with h | h
          · exact_mod_cast h
          · exact absurd h hscale.ne'
        exact ⟨⟨0, by rw [hm, Nat.cast_zero]⟩, hzero⟩
      · rintro ⟨-, rfl⟩
        exact ⟨0, by simp⟩

theorem Counts.isFinite (h : x.Counts) : x.isFinite := by
  obtain ⟨k, hk⟩ := h
  cases x with
  | finite => rfl
  | nan => cases hk
  | infinite => cases hk

section Whole

variable {n : Int}

theorem toInt?_finite {negative : Bool} (h : (finite negative m e).toInt? = some n) :
    ∃ k : Nat, (m : ℚ) * 2 ^ e = k ∧ k = (ratio m e).1 / (ratio m e).2 ∧
      n = if negative then -(k : Int) else k := by
  unfold toInt? at h
  dsimp only at h
  split at h
  · rename_i hmod
    have hpos : ((ratio m e).2 : ℚ) ≠ 0 := by
      have hden := ratio_den_pos m e
      positivity
    refine ⟨_, ?_, rfl, (Option.some.inj h).symm⟩
    rw [← ratio_quotient, div_eq_iff hpos]
    exact_mod_cast (Nat.div_mul_cancel (Nat.dvd_of_mod_eq_zero hmod)).symm
  · cases h

/-- A number of the format that is a whole number from one on is the number of that natural. -/
theorem ofNat_of_toInt? (hx : x.Proper) (h : x.toInt? = some n) (hn : 1 ≤ n) :
    ofNat n.toNat = x := by
  cases x with
  | nan => cases h
  | infinite negative => cases h
  | finite negative m e =>
    obtain ⟨k, hvalue, -, hwhole⟩ := toInt?_finite h
    cases negative with
    | true =>
      rw [if_pos rfl] at hwhole
      omega
    | false =>
      rw [if_neg (by decide)] at hwhole
      have hnat : n.toNat = k := by omega
      have hm : m ≠ 0 := by
        rintro rfl
        rw [Nat.cast_zero, zero_mul] at hvalue
        have hzero : k = 0 := by exact_mod_cast hvalue.symm
        omega
      refine ofRatio_of_inFormat false hx hm Nat.one_pos ?_
      rw [hnat, Nat.cast_one, div_one, hvalue]

theorem atLeastOne_iff (h : x.toInt? = some n) : x.atLeastOne ↔ 1 ≤ n := by
  cases x with
  | nan => cases h
  | infinite negative => cases h
  | finite negative m e =>
    obtain ⟨k, -, hk, hwhole⟩ := toInt?_finite h
    cases negative with
    | true =>
      rw [if_pos rfl] at hwhole
      refine iff_of_false ?_ (by omega)
      simp [atLeastOne]
    | false =>
      rw [if_neg (by decide)] at hwhole
      have hone : (ratio m e).2 ≤ (ratio m e).1 ↔ 1 ≤ k := by
        rw [hk, Nat.one_le_div_iff (ratio_den_pos m e)]
      rw [show n = (k : Int) from hwhole, Nat.one_le_cast, ← hone]
      simp [atLeastOne]

end Whole

end ArchiveKeeper.Double
