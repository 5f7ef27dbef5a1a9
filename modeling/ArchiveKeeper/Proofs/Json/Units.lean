import ArchiveKeeper.Proofs.Json.Escapes
import ArchiveKeeper.Text.Units

namespace ArchiveKeeper.Json

def Rune.units : Rune → List Nat
  | .char c => ArchiveKeeper.Text.unitsOf c
  | .half offset => [0xD800 + offset.val]

namespace Text

def units (t : Text) : List Nat := t.flatMap Rune.units

/-- Appends code units, in front of which the elements stand in reverse. -/
def pushUnits (before : Text) (us : List Nat) : Text := us.foldl pushUnit before

variable {before t : Text} {u : Nat} {us : List Nat}

theorem units_reverse_cons (r : Rune) (before : Text) :
    units (r :: before).reverse = units before.reverse ++ r.units := by
  rw [List.reverse_cons, units, List.flatMap_append, List.flatMap_singleton]
  rfl

theorem pushUnits_append (before : Text) (us us' : List Nat) :
    pushUnits before (us ++ us') = pushUnits (pushUnits before us) us' := List.foldl_append

theorem toNat_ofNat (h : u.isValidChar) : (Char.ofNat u).toNat = u := by
  rw [Char.ofNat, dif_pos h]
  rfl

/-- A character is one code unit that is no half, or two halves that make up a pair. -/
theorem unitsOf_cases (c : Char) :
    (ArchiveKeeper.Text.unitsOf c = [c.toNat] ∧ c.toNat < 0x10000 ∧
      ¬ (0xD800 ≤ c.toNat ∧ c.toNat < 0xE000)) ∨
    ∃ first second, first < 0x400 ∧ second < 0x400 ∧
      ArchiveKeeper.Text.unitsOf c = [0xD800 + first, 0xDC00 + second] ∧
      c.toNat = 0x10000 + first * 0x400 + second := by
  have hvalid : c.toNat < 0xD800 ∨ 0xDFFF < c.toNat ∧ c.toNat < 0x110000 := c.valid
  unfold ArchiveKeeper.Text.unitsOf
  dsimp only
  split
  · exact .inl ⟨rfl, by omega, by omega⟩
  · exact .inr ⟨(c.toNat - 0x10000) / 0x400, (c.toNat - 0x10000) % 0x400, by omega, by omega, rfl,
      by omega⟩

/-- The code units of a character are read as it, whatever stands before them. -/
theorem pushUnits_unitsOf (before : Text) (c : Char) :
    pushUnits before (ArchiveKeeper.Text.unitsOf c) = .char c :: before := by
  rcases unitsOf_cases c with ⟨hunits, -, hplain⟩ | ⟨first, second, hfirst, hsecond, hunits, hc⟩
  · rw [hunits]
    change pushUnit before c.toNat = _
    rw [pushUnit, dif_neg hplain, Char.ofNat_toNat]
  · rw [hunits]
    change pushUnit (pushUnit before (0xD800 + first)) (0xDC00 + second) = _
    -- the first half of a pair completes no other one
    have hhalf : pushUnit before (0xD800 + first) = .half ⟨first, by omega⟩ :: before := by
      refine @pushUnit_half before ⟨first, by omega⟩ fun r _ => ?_
      cases r with
      | char _ => trivial
      | half _ => exact fun h => absurd h.2 (by dsimp only; omega)
    have hpair : 0x10000 + first * 0x400 + (0xDC00 + second - 0xDC00) = c.toNat := by omega
    rw [hhalf, pushUnit, dif_pos (by omega)]
    dsimp only
    rw [if_pos (by omega), hpair, Char.ofNat_toNat]

/-- A text that holds no pair in halves is what its code units are read as. -/
theorem pushUnits_units (h : Joined (before.reverse ++ t)) :
    pushUnits before t.units = t.reverse ++ before := by
  induction t generalizing before with
  | nil => rfl
  | cons r t ih =>
    have hnext : Joined ((r :: before).reverse ++ t) := by
      rwa [List.reverse_cons, List.append_assoc]
    have hr : pushUnits before r.units = r :: before := by
      cases r with
      | char c => exact pushUnits_unitsOf before c
      | half offset =>
        refine pushUnit_half fun b hb => ?_
        have hlast : b ∈ before.reverse.getLast? := by rwa [List.getLast?_reverse]
        exact (List.isChain_append.mp h).2.2 b hlast _ rfl
    rw [units, List.flatMap_cons, pushUnits_append, hr]
    change pushUnits (r :: before) (units t) = _
    rw [ih hnext, List.reverse_cons, List.append_assoc]
    rfl

theorem units_pushUnit (before : Text) (h : u < 0x10000) :
    units (pushUnit before u).reverse = units before.reverse ++ [u] := by
  have hlone (hu : 0xD800 ≤ u ∧ u < 0xE000) :
      units (.half ⟨u - 0xD800, by omega⟩ :: before).reverse = units before.reverse ++ [u] := by
    rw [units_reverse_cons]
    change _ ++ [0xD800 + (u - 0xD800)] = _
    rw [Nat.add_sub_cancel' hu.1]
  unfold pushUnit
  split
  · rename_i hu
    split
    · rename_i first rest
      split
      · -- the two halves of a pair are the code units of its character
        rename_i hpair
        have hvalid : (0x10000 + first.val * 0x400 + (u - 0xDC00)).isValidChar :=
          .inr (by omega)
        have hpair : ArchiveKeeper.Text.unitsOf
            (Char.ofNat (0x10000 + first.val * 0x400 + (u - 0xDC00))) =
              [0xD800 + first.val] ++ [u] := by
          rw [ArchiveKeeper.Text.unitsOf, toNat_ofNat hvalid, if_neg (by omega),
            List.singleton_append]
          exact congrArg₂ (fun a b => [a, b]) (by omega) (by omega)
        rw [units_reverse_cons, units_reverse_cons, List.append_assoc]
        exact congrArg _ hpair
      · exact hlone hu
    · exact hlone hu
  · rename_i hu
    have hvalid : u.isValidChar := by
      unfold Nat.isValidChar
      omega
    rw [units_reverse_cons]
    congr 1
    change ArchiveKeeper.Text.unitsOf _ = [u]
    rw [ArchiveKeeper.Text.unitsOf, toNat_ofNat hvalid]
    exact if_pos h

theorem units_pushUnits (before : Text) (h : ∀ u ∈ us, u < 0x10000) :
    units (pushUnits before us).reverse = units before.reverse ++ us := by
  induction us generalizing before with
  | nil => exact (List.append_nil _).symm
  | cons u us ih =>
    obtain ⟨hu, hus⟩ := List.forall_mem_cons.mp h
    change units (pushUnits (pushUnit before u) us).reverse = _
    rw [ih _ hus, units_pushUnit before hu, List.append_assoc]
    rfl

theorem joined_pushUnits (h : Joined before.reverse) (us : List Nat) :
    Joined (pushUnits before us).reverse := by
  induction us generalizing before with
  | nil => exact h
  | cons u us ih => exact ih (joined_pushUnit h u)

/-- What code units are read as is the text that has them and no pair in halves. -/
theorem reverse_pushUnits_eq_iff (h : ∀ u ∈ us, u < 0x10000) :
    (pushUnits [] us).reverse = t ↔ t.Joined ∧ t.units = us := by
  constructor
  · rintro rfl
    exact ⟨joined_pushUnits (by exact List.isChain_nil) us, units_pushUnits [] h⟩
  · rintro ⟨hjoined, rfl⟩
    rw [pushUnits_units (by exact hjoined), List.append_nil, List.reverse_reverse]

end Text

end ArchiveKeeper.Json
