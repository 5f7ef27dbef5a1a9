import ArchiveKeeper.Text.Utf8
import Mathlib.Tactic.Common

namespace ArchiveKeeper.Text

variable {c d low high : Char} {start cs : List Char} {s s' : String} {m n : Nat}

theorem toList_loop (bs : ByteArray) (i : Nat) (read : List UInt8) :
    ByteArray.toList.loop bs i read = read.reverse ++ bs.data.toList.drop i := by
  fun_induction ByteArray.toList.loop bs i read with
  | case1 i read hi ih =>
    have hlen : i < bs.data.toList.length := by simpa using hi
    have hget : bs.get! i = bs.data.toList[i] := by
      change bs.data[i]! = _
      rw [getElem!_pos bs.data i hi, Array.getElem_toList]
    rw [ih, List.drop_eq_getElem_cons hlen, hget, List.reverse_cons, List.append_assoc,
      List.singleton_append]
  | case2 i read hi =>
    rw [List.drop_of_length_le (by simpa using Nat.le_of_not_lt hi), List.append_nil]

theorem bytes_eq_flatMap (s : String) : bytes s = s.toList.flatMap String.utf8EncodeChar := by
  have hbytes : s.toUTF8 = (s.toList.flatMap String.utf8EncodeChar).toByteArray := by
    calc s.toUTF8 = (String.ofList s.toList).toByteArray := by rw [String.ofList_toList]; rfl
      _ = s.toList.utf8Encode := String.toByteArray_ofList
  rw [bytes, ByteArray.toList, toList_loop, hbytes, List.toList_data_toByteArray]
  rfl

theorem ofNat_lt_iff (hm : m < 256) (hn : n < 256) : UInt8.ofNat m < UInt8.ofNat n ↔ m < n := by
  rw [UInt8.lt_iff_toNat_lt, UInt8.toNat_ofNat_of_lt' hm, UInt8.toNat_ofNat_of_lt' hn]

theorem ofNat_eq_iff (hm : m < 256) (hn : n < 256) : UInt8.ofNat m = UInt8.ofNat n ↔ m = n := by
  rw [← UInt8.toNat_inj, UInt8.toNat_ofNat_of_lt' hm, UInt8.toNat_ofNat_of_lt' hn]

/-- A lesser number is less without its last digit, or its last digit is. -/
theorem div_lt_or (h : m < n) (base : Nat) :
    m / base < n / base ∨ m / base = n / base ∧ m % base < n % base := by
  have hle : m / base ≤ n / base := Nat.div_le_div_right (Nat.le_of_lt h)
  rcases Nat.lt_or_eq_of_le hle with hlt | heq
  · exact .inl hlt
  · have hm := Nat.div_add_mod m base
    have hn := Nat.div_add_mod n base
    rw [heq] at hm
    exact .inr ⟨heq, by omega⟩

/-- A lesser character has lesser bytes, whatever comes after them. -/
theorem encode_lt (h : c < d) (bs bs' : List UInt8) :
    String.utf8EncodeChar c ++ bs < String.utf8EncodeChar d ++ bs' := by
  have hlt : c.val.toNat < d.val.toNat := h
  have hd : d.val.toNat < 0x110000 := by
    rcases d.valid with hd | hd <;> omega
  unfold String.utf8EncodeChar
  generalize c.val.toNat = m at hlt
  generalize d.val.toNat = n at hlt hd
  dsimp only
  by_cases hm : m ≤ 0xFFFF
  · -- the first byte tells how many there are, and of as many the digits are compared in turn
    split_ifs <;> simp (disch := omega) only [List.cons_append, List.nil_append,
      List.cons_lt_cons_iff, ofNat_lt_iff, ofNat_eq_iff] <;> omega
  · rw [if_neg (by omega), if_neg (by omega), if_neg hm, if_neg (by omega), if_neg (by omega),
      if_neg (by omega)]
    simp (disch := omega) only [List.cons_append, List.nil_append, List.cons_lt_cons_iff,
      ofNat_lt_iff, ofNat_eq_iff]
    rcases div_lt_or hlt 64 with h₁ | ⟨h₁, hlast⟩
    · rcases div_lt_or h₁ 64 with h₂ | ⟨h₂, hthird⟩
      · have h₃ := div_lt_or h₂ 64
        omega
      · omega
    · omega

theorem append_lt_append_iff {α : Type} [LT α] [Std.Irrefl (· < · : α → α → Prop)]
    (as : List α) {bs bs' : List α} : as ++ bs < as ++ bs' ↔ bs < bs' := by
  induction as with
  | nil => rfl
  | cons a as ih =>
    have hirrefl : ¬ a < a := Std.Irrefl.irrefl a
    rw [List.cons_append, List.cons_append, List.cons_lt_cons_iff, ih]
    simp [hirrefl]

theorem lt_iff_bytes_lt : s < s' ↔ bytes s < bytes s' := by
  rw [bytes_eq_flatMap, bytes_eq_flatMap]
  change s.toList < s'.toList ↔ _
  generalize s.toList = cs
  generalize s'.toList = ds
  induction cs generalizing ds with
  | nil =>
    cases ds with
    | nil => simp
    | cons d ds =>
      obtain ⟨b, bs, hb⟩ := List.exists_cons_of_ne_nil (String.utf8EncodeChar_ne_nil (c := d))
      simp [hb]
  | cons c cs ih =>
    cases ds with
    | nil => simp
    | cons d ds =>
      rw [List.flatMap_cons, List.flatMap_cons, List.cons_lt_cons_iff]
      rcases Std.lt_trichotomy c d with hlt | rfl | hgt
      · simp [hlt, encode_lt hlt]
      · simp [append_lt_append_iff, ih]
      · have hbytes := encode_lt hgt (ds.flatMap String.utf8EncodeChar)
          (cs.flatMap String.utf8EncodeChar)
        have hnot := Std.Asymm.asymm _ _ hbytes
        simp [Std.not_gt_of_lt hgt, (Std.ne_of_lt hgt).symm, hnot]

/-- Where one character comes right after another one, between a text that ends in the one and that
which ends in the other is what starts with the first text. -/
theorem between_iff (hnext : ∀ c, ¬ c < low ∧ c < high ↔ c = low) :
    ¬ cs < start ++ [low] ∧ cs < start ++ [high] ↔ start ++ [low] <+: cs := by
  induction start generalizing cs with
  | nil =>
    cases cs with
    | nil => simp
    | cons c cs =>
      simp only [List.nil_append, List.cons_lt_cons_iff, List.not_lt_nil, and_false, or_false]
      rw [hnext, List.cons_prefix_cons, and_iff_left List.nil_prefix, eq_comm]
  | cons a start ih =>
    cases cs with
    | nil => simp
    | cons c cs =>
      rw [List.cons_append, List.cons_append, List.cons_prefix_cons, List.cons_lt_cons_iff,
        List.cons_lt_cons_iff, ← ih]
      rcases Std.lt_trichotomy c a with hlt | rfl | hgt
      · simp [hlt, (Std.ne_of_lt hlt).symm]
      · simp
      · simp [Std.not_gt_of_lt hgt, Std.ne_of_lt hgt, (Std.ne_of_lt hgt).symm]

end ArchiveKeeper.Text
