import ArchiveKeeper.Json.Reader
import Mathlib.Data.List.Chain

namespace ArchiveKeeper.Json

open Token

/-- Two elements that are not the halves of one pair. -/
def Rune.Apart : Rune → Rune → Prop
  | .half first, .half second => ¬ (first.val < 0x400 ∧ 0x400 ≤ second.val)
  | _, _ => True

/-- A text in which all pairs are characters. -/
def Text.Joined (t : Text) : Prop := t.IsChain Rune.Apart

theorem Rune.apart_char {r : Rune} {c : Char} : Apart r (.char c) := by
  cases r <;> trivial

theorem Rune.char_apart {r : Rune} {c : Char} : Apart (.char c) r := by
  cases r <;> trivial

theorem Text.joined_ofString (s : String) : (ofString s).Joined := by
  unfold Joined ofString
  rw [List.isChain_map]
  exact (List.pairwise_of_forall fun _ _ => trivial).isChain

theorem string?_escape (before : Text) {e c : Char} (h : escaped? e = some c) (rest : List Char) :
    string? before ('\\' :: e :: rest) = string? (.char c :: before) rest := by
  have hu : e ≠ 'u' := fun he => by simp [he, escaped?] at h
  rw [string?.eq_def]
  split
  -- the branch for what stands for itself, which is not taken after a backslash
  case h_5 hesc heq =>
    obtain ⟨rfl, rfl⟩ := List.cons.inj heq
    exact absurd rfl (hesc _ _ rfl)
  all_goals simp_all

theorem pushUnit_half {before : Text} {offset : Fin 0x800}
    (h : ∀ r ∈ before.head?, r.Apart (.half offset)) :
    Text.pushUnit before (0xD800 + offset.val) = .half offset :: before := by
  have hunit : 0xD800 ≤ 0xD800 + offset.val ∧ 0xD800 + offset.val < 0xE000 := by omega
  have hoffset (hlt : 0xD800 + offset.val - 0xD800 < 0x800) :
      (⟨0xD800 + offset.val - 0xD800, hlt⟩ : Fin 0x800) = offset := Fin.ext (by simp)
  rw [Text.pushUnit, dif_pos hunit]
  split
  · rename_i first rest
    have hapart : ¬ (first.val < 0x400 ∧ 0x400 ≤ offset.val) := h (.half first) rfl
    rw [if_neg (by omega), hoffset]
  · rw [hoffset]

theorem string?_cons (before : Text) {c : Char} (hquote : c ≠ '"') (hback : c ≠ '\\')
    (hcontrol : ¬ c.toNat < 0x20) (rest : List Char) :
    string? before (c :: rest) = string? (.char c :: before) rest := by
  rw [string?.eq_def]
  split
  case h_5 heq =>
    obtain ⟨rfl, rfl⟩ := List.cons.inj heq
    rw [if_neg (by simp [hcontrol, hback])]
  all_goals simp_all

section Read

variable {before s : Text}

theorem joined_reverse : Text.Joined before.reverse ↔ before.IsChain fun a b => b.Apart a :=
  List.isChain_reverse

theorem joined_char (h : Text.Joined before.reverse) (c : Char) :
    Text.Joined (Rune.char c :: before).reverse := by
  rw [joined_reverse] at h ⊢
  exact List.isChain_cons.mpr ⟨fun _ _ => Rune.apart_char, h⟩

theorem joined_pushUnit (h : Text.Joined before.reverse) (unit : Nat) :
    Text.Joined (Text.pushUnit before unit).reverse := by
  unfold Text.pushUnit
  split
  · split
    · rename_i first rest
      split
      · apply joined_char
        rw [joined_reverse] at h ⊢
        exact h.of_cons
      · rename_i hunit hpair
        rw [joined_reverse] at h ⊢
        refine List.isChain_cons_cons.mpr ⟨?_, h⟩
        change ¬ (first.val < 0x400 ∧ 0x400 ≤ unit - 0xD800)
        omega
    · rename_i hhalf
      rw [joined_reverse] at h ⊢
      refine List.isChain_cons.mpr ⟨fun r hr => ?_, h⟩
      cases r with
      | char c => exact Rune.char_apart
      | half first => exact absurd (List.eq_cons_of_mem_head? hr) (hhalf first _)
  · exact joined_char h _

theorem joined_string? {cs rest : List Char} (h : string? before cs = some (s, rest))
    (hbefore : Text.Joined before.reverse) : s.Joined := by
  fun_induction string? before cs with
  | case1 => cases h
  | case2 => cases h; exact hbefore
  | case3 _ _ _ _ _ _ unit _ ih => exact ih h (joined_pushUnit hbefore unit)
  | case4 => cases h
  | case5 _ _ _ _ c _ ih => exact ih h (joined_char hbefore c)
  | case6 => cases h
  | case7 => cases h
  | case8 _ c _ _ _ _ _ ih => exact ih h (joined_char hbefore c)

end Read

end ArchiveKeeper.Json
