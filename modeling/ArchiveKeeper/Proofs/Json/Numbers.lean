import ArchiveKeeper.Proofs.Json.Words
import ArchiveKeeper.Proofs.Number.Decimal

namespace ArchiveKeeper

namespace Json.Token

variable {whole fraction : List Char}

def powerChars : Option Int → List Char
  | none => []
  | some e => 'e' :: (if e < 0 then '-' else '+') :: Nat.toDigits 10 e.natAbs

def fractionChars (fraction : List Char) : List Char :=
  if fraction = [] then [] else '.' :: fraction

def numeral (negative : Bool) (whole fraction : List Char) (power : Option Int) : List Char :=
  (if negative then ['-'] else []) ++ (whole ++ (fractionChars fraction ++ powerChars power))

theorem isFraction_fractionChars (h : ∀ c ∈ fraction, c.isDigit) :
    IsFraction (fractionChars fraction) fraction := by
  unfold fractionChars
  split
  · rename_i hnil
    subst hnil
    exact .none
  · rename_i hne
    exact .some ⟨hne, h⟩

theorem isPower_powerChars (power : Option Int) : IsPower (powerChars power) (power.getD 0) := by
  cases power with
  | none => exact .none
  | some e =>
    have hdigits : IsDigits (Nat.toDigits 10 e.natAbs) := ⟨Nat.toDigits_ne_nil, fun c hc =>
      Nat.isDigit_of_mem_toDigits (by omega) (by omega) hc⟩
    have hvalue : Decimal.ofDigits (Nat.toDigits 10 e.natAbs) = e.natAbs :=
      Nat.ofDigitChars_ten_toDigits
    by_cases he : e < 0
    · have hpower := IsPower.some (.head _) (.tail _ (.tail _ (.head _))) hdigits
      rw [hvalue, if_pos rfl, show -(e.natAbs : Int) = e by omega] at hpower
      rw [powerChars, if_pos he]
      exact hpower
    · have hpower := IsPower.some (.head _) (.tail _ (.head _)) hdigits
      rw [hvalue, if_neg (by decide), show (e.natAbs : Int) = e by omega] at hpower
      rw [powerChars, if_neg he]
      exact hpower

theorem isNumeral_numeral (negative : Bool) (hwhole : IsWhole whole)
    (hfraction : ∀ c ∈ fraction, c.isDigit) (power : Option Int) :
    IsNumeral (numeral negative whole fraction power)
      (Decimal.ofParts negative whole fraction (power.getD 0)) :=
  .mk negative hwhole (isFraction_fractionChars hfraction) (isPower_powerChars power)

end Json.Token

namespace Double

open Json.Token

variable {digits : List Char} {n m : Nat} {e : Int}

/-- Digits as they stand in the text of a number: those of a natural, which are not just a zero. -/
structure AreDigits (digits : List Char) (n : Nat) : Prop where
  eq : digits = Nat.toDigits 10 n
  ne_zero : n ≠ 0

namespace AreDigits

theorem isDigit (h : AreDigits digits n) : ∀ c ∈ digits, c.isDigit := by
  intro c hc
  rw [h.eq] at hc
  exact Nat.isDigit_of_mem_toDigits (by omega) (by omega) hc

theorem value (h : AreDigits digits n) : Decimal.ofDigits digits = n := by
  rw [h.eq]
  exact Nat.ofDigitChars_ten_toDigits

theorem lead (h : AreDigits digits n) : ∃ c cs, digits = c :: cs ∧ c ≠ '0' := by
  obtain ⟨hdigits, hne⟩ := h
  subst hdigits
  have hdigit : ∀ k < 10, k ≠ 0 → Nat.digitChar k ≠ '0' := by decide
  induction n using Nat.strong_induction_on with
  | _ n ih =>
    by_cases hn : n < 10
    · exact ⟨n.digitChar, [], Nat.toDigits_of_lt_base hn, hdigit n hn hne⟩
    · obtain ⟨c, cs, heq, hc⟩ := ih (n / 10) (by omega) (by omega)
      refine ⟨c, cs ++ [(n % 10).digitChar], ?_, hc⟩
      rw [Nat.toDigits_of_base_le (by omega) (by omega), heq, List.cons_append]

end AreDigits

theorem ofDigits_append_zeros (digits : List Char) (k : Nat) :
    Decimal.ofDigits (digits ++ List.replicate k '0') = Decimal.ofDigits digits * 10 ^ k := by
  induction k with
  | zero => simp
  | succ k ih =>
    rw [List.replicate_succ', ← List.append_assoc]
    unfold Decimal.ofDigits at ih ⊢
    rw [List.foldl_append, ih, List.foldl_cons, List.foldl_nil, pow_succ]
    have hzero : Decimal.digitValue '0' = 0 := by decide
    rw [hzero]
    ring

theorem ofDigits_zeros_append (digits : List Char) (k : Nat) :
    Decimal.ofDigits (List.replicate k '0' ++ digits) = Decimal.ofDigits digits := by
  induction k with
  | zero => rfl
  | succ k ih =>
    rw [← ih]
    rfl

/-- Parts of a number that have a value. -/
structure Parts (text : List Char) (value : ℚ) (whole fraction : List Char)
    (power : Option Int) : Prop where
  eq_numeral : text = numeral false whole fraction power
  isWhole : IsWhole whole
  isDigit : ∀ c ∈ fraction, c.isDigit
  eq_value : (Decimal.ofParts false whole fraction (power.getD 0)).value = value

theorem value_ofParts (negative : Bool) (whole fraction : List Char) (e : Int) :
    (Decimal.ofParts negative whole fraction e).value =
      Decimal.ofDigits (whole ++ fraction) * 10 ^ (e - fraction.length) := rfl

theorem isDigit_zeros (k : Nat) : ∀ c ∈ List.replicate k '0', c.isDigit := by
  intro c hc
  rw [List.eq_of_mem_replicate hc]
  rfl

section Layout

variable {point : Int} (h : AreDigits digits n)

include h

theorem parts_trailing (hpoint : (digits.length : Int) ≤ point ∧ point ≤ 21) :
    Parts (layout digits point).toList (n * 10 ^ (point - digits.length))
      (digits ++ List.replicate (point - digits.length).toNat '0') [] none where
  eq_numeral := by
    simp only [layout, if_pos hpoint]
    simp [numeral, fractionChars, powerChars, repeated]
  isWhole := by
    obtain ⟨c, cs, hcs, hc⟩ := h.lead
    have hlead (zeros : List Char) : digits ++ zeros = c :: (cs ++ zeros) := by
      rw [hcs, List.cons_append]
    exact ⟨List.forall_mem_append.mpr ⟨h.isDigit, isDigit_zeros _⟩, .inr ⟨c, _, hlead _, hc⟩⟩
  isDigit := List.forall_mem_nil _
  eq_value := by
    have hscale : point - digits.length = ((point - digits.length).toNat : Int) := by omega
    rw [value_ofParts]
    simp only [List.append_nil, ofDigits_append_zeros, h.value, Option.getD_none,
      List.length_nil, Nat.cast_zero, sub_zero, zpow_zero, mul_one]
    push_cast
    conv_rhs => rw [hscale, zpow_natCast]

theorem parts_inside (hbefore : ¬ ((digits.length : Int) ≤ point ∧ point ≤ 21))
    (hpoint : 0 < point ∧ point ≤ 21) :
    Parts (layout digits point).toList (n * 10 ^ (point - digits.length))
      (digits.take point.toNat) (digits.drop point.toNat) none where
  eq_numeral := by
    have hdrop : digits.drop point.toNat ≠ [] := by
      rw [ne_eq, List.drop_eq_nil_iff]
      omega
    simp only [layout, if_neg hbefore, if_pos hpoint]
    simp [numeral, fractionChars, powerChars, hdrop]
  isWhole := by
    obtain ⟨c, cs, hcs, hc⟩ := h.lead
    have htake : digits.take point.toNat = c :: cs.take (point.toNat - 1) := by
      have hone : point.toNat = point.toNat - 1 + 1 := by omega
      rw [hcs, hone, List.take_succ_cons]
      rfl
    exact ⟨fun x hx => h.isDigit x (List.mem_of_mem_take hx), .inr ⟨_, _, htake, hc⟩⟩
  isDigit x hx := h.isDigit x (List.mem_of_mem_drop hx)
  eq_value := by
    rw [value_ofParts, List.take_append_drop, h.value, List.length_drop]
    congr 2
    rw [Option.getD_none]
    omega

theorem parts_leading (hbefore : ¬ ((digits.length : Int) ≤ point ∧ point ≤ 21))
    (hinside : ¬ (0 < point ∧ point ≤ 21)) (hpoint : -6 < point ∧ point ≤ 0) :
    Parts (layout digits point).toList (n * 10 ^ (point - digits.length))
      ['0'] (List.replicate (-point).toNat '0' ++ digits) none where
  eq_numeral := by
    obtain ⟨c, cs, hcs, -⟩ := h.lead
    have hne : List.replicate (-point).toNat '0' ++ digits ≠ [] := by simp [hcs]
    simp only [layout, if_neg hbefore, if_neg hinside, if_pos hpoint]
    simp [numeral, fractionChars, powerChars, repeated, hne]
  isWhole := ⟨by simp, .inl rfl⟩
  isDigit := List.forall_mem_append.mpr ⟨isDigit_zeros _, h.isDigit⟩
  eq_value := by
    have hvalue : Decimal.ofDigits (['0'] ++ (List.replicate (-point).toNat '0' ++ digits)) = n := by
      have hzero := ofDigits_zeros_append digits ((-point).toNat + 1)
      rw [List.replicate_succ, List.cons_append, h.value] at hzero
      exact hzero
    rw [value_ofParts, hvalue, List.length_append, List.length_replicate]
    congr 2
    rw [Option.getD_none]
    omega

/-- One digit stands in front of the point, and a power of ten behind the digits. -/
theorem parts_power (hbefore : ¬ ((digits.length : Int) ≤ point ∧ point ≤ 21))
    (hinside : ¬ (0 < point ∧ point ≤ 21)) (hbelow : ¬ (-6 < point ∧ point ≤ 0)) :
    ∃ c cs, Parts (layout digits point).toList (n * 10 ^ (point - digits.length)) [c] cs
      (some (point - 1)) := by
  obtain ⟨c, cs, hcs, hc⟩ := h.lead
  have hdigits : ∀ x ∈ c :: cs, x.isDigit := hcs ▸ h.isDigit
  obtain ⟨hfirst, hrest⟩ := List.forall_mem_cons.mp hdigits
  refine ⟨c, cs, ?_, ⟨List.forall_mem_singleton.mpr hfirst, .inr ⟨c, [], rfl, hc⟩⟩, hrest, ?_⟩
  · simp only [layout, if_neg hbefore, if_neg hinside, if_neg hbelow]
    rw [hcs]
    unfold numeral fractionChars powerChars
    cases cs with
    | nil => by_cases hsign : point - 1 < 0 <;> simp [hsign]
    | cons d ds => by_cases hsign : point - 1 < 0 <;> simp [hsign]
  · have hlength : digits.length = cs.length + 1 := by rw [hcs, List.length_cons]
    rw [value_ofParts, List.singleton_append, ← hcs, h.value]
    congr 2
    rw [Option.getD_some]
    omega

/-- However the digits of a number are laid out, the parts of its text have its value. -/
theorem layout_parts (point : Int) :
    ∃ whole fraction power, Parts (layout digits point).toList
      (n * 10 ^ (point - digits.length)) whole fraction power := by
  by_cases hbefore : (digits.length : Int) ≤ point ∧ point ≤ 21
  · exact ⟨_, _, _, parts_trailing h hbefore⟩
  by_cases hinside : 0 < point ∧ point ≤ 21
  · exact ⟨_, _, _, parts_inside h hbefore hinside⟩
  by_cases hbelow : -6 < point ∧ point ≤ 0
  · exact ⟨_, _, _, parts_leading h hbefore hinside hbelow⟩
  · obtain ⟨c, cs, hparts⟩ := parts_power h hbefore hinside hbelow
    exact ⟨_, _, _, hparts⟩

end Layout

/-- A number without the sign of zero. -/
def plain : Double → Double
  | .finite negative m e => if m = 0 then zero else .finite negative m e
  | x => x

/-- The text of a finite number is a numeral of it, up to the sign of zero. -/
theorem isNumeral_text (h : InFormat m e) (negative : Bool) :
    ∃ d, IsNumeral (finite negative m e).text.toList d ∧
      d.toDouble = (finite negative m e).plain := by
  by_cases hm : m = 0
  · have hzero : (finite negative m e).text.toList = numeral false ['0'] [] none := by
      rw [text, if_pos hm]
      rfl
    have hwhole : IsWhole ['0'] := ⟨by simp, .inl rfl⟩
    refine ⟨_, hzero ▸ isNumeral_numeral false hwhole (List.forall_mem_nil _) none, ?_⟩
    rw [plain, if_pos hm]
    exact Decimal.toDouble_of_digits_eq_zero rfl
  · obtain ⟨s, hs⟩ : ∃ s, s = Decimal.shortest m e := ⟨_, rfl⟩
    have hreads := Decimal.shortest_readsBack h hm negative
    rw [← hs] at hreads
    -- the shortest digits read back as the number, which is not zero
    have hne : s.1 ≠ 0 := by
      intro hzero
      rw [Decimal.toDouble_of_digits_eq_zero hzero] at hreads
      cases hreads
      exact hm rfl
    obtain ⟨whole, fraction, power, htext, hwhole, hfraction, hvalue⟩ :=
      layout_parts ⟨rfl, hne⟩ (s.2 + (Nat.toDigits 10 s.1).length)
    have hnumeral : (finite negative m e).text.toList =
        numeral negative whole fraction power := by
      rw [text, if_neg hm, ← hs]
      dsimp only
      rw [String.toList_append, htext]
      cases negative <;> rfl
    refine ⟨_, hnumeral ▸ isNumeral_numeral negative hwhole hfraction power, ?_⟩
    rw [plain, if_neg hm, ← hreads]
    refine Decimal.toDouble_congr rfl ?_
    rw [add_sub_cancel_right] at hvalue
    exact hvalue

end Double

end ArchiveKeeper
