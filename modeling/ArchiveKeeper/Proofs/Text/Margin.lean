import ArchiveKeeper.Text.Blank
import Mathlib.Data.List.DropRight

namespace ArchiveKeeper.Text

variable {p : Char → Bool} {cs pre post core : List Char}

/-- Neither end of a list belongs to the margin. -/
structure Free (p : Char → Bool) (cs : List Char) : Prop where
  head : ∀ c ∈ cs.head?, ¬ p c
  last : ∀ c ∈ cs.getLast?, ¬ p c

def middle (p : Char → Bool) (cs : List Char) : List Char := dropRightWhile p (cs.dropWhile p)

theorem dropWhile_of_head (h : ∀ c ∈ cs.head?, ¬ p c) : cs.dropWhile p = cs := by
  cases cs with
  | nil => rfl
  | cons c cs => exact List.dropWhile_cons_of_neg (h c rfl)

theorem dropRightWhile_of_last (h : ∀ c ∈ cs.getLast?, ¬ p c) : dropRightWhile p cs = cs := by
  change cs.rdropWhile p = cs
  rw [List.rdropWhile_eq_self_iff]
  intro hne
  exact h _ (List.getLast_mem_getLast? hne)

theorem middle_of_free (h : Free p cs) : middle p cs = cs := by
  rw [middle, dropWhile_of_head h.head, dropRightWhile_of_last h.last]

theorem head?_dropWhile_not (cs : List Char) : ∀ c ∈ (cs.dropWhile p).head?, ¬ p c := by
  intro c hc
  have hnot := List.head?_dropWhile_not p cs
  rw [hc] at hnot
  simpa using hnot

theorem free_middle (p : Char → Bool) (cs : List Char) : Free p (middle p cs) := by
  refine ⟨fun c hc => ?_, fun c hc => ?_⟩
  · -- the head of what is left is the head of what was left by the first cut
    obtain ⟨tail, htail⟩ := List.rdropWhile_prefix p (cs.dropWhile p)
    have hhead : c ∈ (cs.dropWhile p).head? := by
      rw [← htail]
      exact List.mem_head?_append_of_mem_head? hc
    exact head?_dropWhile_not cs c hhead
  · have hne : (cs.dropWhile p).rdropWhile p ≠ [] := by
      intro hnil
      change c ∈ ((cs.dropWhile p).rdropWhile p).getLast? at hc
      rw [hnil] at hc
      cases hc
    have hlast := List.rdropWhile_last_not p (cs.dropWhile p) hne
    have heq : ((cs.dropWhile p).rdropWhile p).getLast hne = c :=
      List.getLast_of_mem_getLast? hc
    rwa [heq] at hlast

theorem middle_middle (p : Char → Bool) (cs : List Char) :
    middle p (middle p cs) = middle p cs :=
  middle_of_free (free_middle p cs)

theorem exists_margins (p : Char → Bool) (cs : List Char) :
    ∃ pre post, cs = pre ++ middle p cs ++ post ∧ (∀ c ∈ pre, p c) ∧ ∀ c ∈ post, p c := by
  refine ⟨cs.takeWhile p, (cs.dropWhile p).rtakeWhile p, ?_, ?_, ?_⟩
  · calc cs = cs.takeWhile p ++ cs.dropWhile p := List.takeWhile_append_dropWhile.symm
      _ = cs.takeWhile p ++ ((cs.dropWhile p).rdropWhile p ++ (cs.dropWhile p).rtakeWhile p) := by
        rw [List.rdropWhile_append_rtakeWhile]
      _ = cs.takeWhile p ++ middle p cs ++ (cs.dropWhile p).rtakeWhile p :=
        (List.append_assoc ..).symm
  · exact fun c hc => List.mem_takeWhile_imp hc
  · exact fun c hc => List.mem_rtakeWhile_imp hc

/-- The middle of a list does not depend on how wide its margins are. -/
theorem middle_append (hpre : ∀ c ∈ pre, p c) (hpost : ∀ c ∈ post, p c) (h : Free p core) :
    middle p (pre ++ core ++ post) = core := by
  have hdrop : dropRightWhile p (core ++ post) = core := by
    unfold dropRightWhile
    rw [List.reverse_append, List.dropWhile_append_of_pos (by simpa using hpost)]
    exact dropRightWhile_of_last h.last
  rw [middle, List.append_assoc, List.dropWhile_append_of_pos hpre]
  cases core with
  | nil =>
    have hnil : post.dropWhile p = [] := List.dropWhile_eq_nil_iff.mpr hpost
    rw [List.nil_append, hnil]
    rfl
  | cons c core =>
    rw [List.cons_append, List.dropWhile_cons_of_neg (h.head c rfl), ← List.cons_append, hdrop]

end ArchiveKeeper.Text
