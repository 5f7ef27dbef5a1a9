import ArchiveKeeper.Text.Blank

namespace ArchiveKeeper.Text

theorem byteCount_singleton (c : Char) : byteCount (String.singleton c) = c.utf8Size := by
  rw [byteCount, String.singleton, String.utf8ByteSize_push]
  simp

theorem byteCount_append (s t : String) : byteCount (s ++ t) = byteCount s + byteCount t :=
  String.utf8ByteSize_append

theorem byteCount_ofList_le (cs : List Char) : byteCount (String.ofList cs) ≤ 4 * cs.length := by
  induction cs with
  | nil => exact Nat.le_of_eq rfl
  | cons c cs ih =>
    have hle := c.utf8Size_le_four
    rw [String.ofList_cons, byteCount_append, byteCount_singleton, List.length_cons]
    omega

theorem byteCount_replicate (n : Nat) : byteCount (String.ofList (List.replicate n 'a')) = n := by
  have hone : 'a'.utf8Size = 1 := by decide
  induction n with
  | zero => rfl
  | succ n ih =>
    rw [List.replicate_succ, String.ofList_cons, byteCount_append, byteCount_singleton, ih, hone]
    omega

end ArchiveKeeper.Text
