import ArchiveKeeper.Number.Literal
import ArchiveKeeper.Proofs.Number.Decimal

namespace ArchiveKeeper

namespace Double

/-- A number that a value can hold: one of the format, or not a number. -/
def Admissible (x : Double) : Prop := x = .nan ∨ x.Proper

theorem proper_ofNat (n : Nat) : (ofNat n).Proper := proper_ofRatio false n Nat.one_pos

end Double

namespace Literal

variable {cs : List Char} {x : Double}

theorem proper_wholeIn? {base : Nat} (h : wholeIn? base cs = some x) : x.Proper := by
  unfold wholeIn? at h
  split at h
  · cases h
    exact Double.proper_ofNat _
  · cases h

theorem proper_decimal? (h : decimal? cs = some x) : x.Proper := by
  unfold decimal? at h
  dsimp only at h
  split at h
  · cases h
    trivial
  · split at h
    · cases h
    · obtain ⟨e, -, rfl⟩ := Option.map_eq_some_iff.mp h
      exact Decimal.proper_toDouble _

theorem proper_number? (h : number? cs = some x) : x.Proper := by
  unfold number? at h
  split at h
  · cases h
    exact Double.inFormat_zero
  · -- a base that is announced, or else a decimal
    split at h
    · exact proper_wholeIn? h
    · split at h
      · exact proper_wholeIn? h
      · split at h
        · exact proper_wholeIn? h
        · exact proper_decimal? h
  · exact proper_decimal? h

end Literal

theorem Double.admissible_ofText (s : String) : (Double.ofText s).Admissible := by
  unfold ofText
  cases h : Literal.number? (Text.trimList s.toList) with
  | none => exact .inl rfl
  | some x => exact .inr (Literal.proper_number? h)

end ArchiveKeeper
