import ArchiveKeeper.Text.Beginning
import ArchiveKeeper.Text.Blank

namespace ArchiveKeeper.Text

variable {c : Char} {as cs rest part : List Char} {parts : List (List Char)}

theorem after?_eq_some_iff : after? as cs = some rest ↔ cs = as ++ rest := by
  induction as generalizing cs with
  | nil => simp [after?, eq_comm]
  | cons a as ih =>
    cases cs with
    | nil => simp [after?]
    | cons c cs =>
      rw [after?]
      by_cases h : a = c
      · simp [h, ih]
      · simp [h, Ne.symm h]

theorem splitList_cons_self (c : Char) (cs : List Char) :
    splitList c (c :: cs) = [] :: splitList c cs := by
  rw [splitList, if_pos rfl]

theorem splitList_ne_nil (c : Char) (cs : List Char) : splitList c cs ≠ [] := by
  cases cs with
  | nil => exact List.cons_ne_nil _ _
  | cons x xs =>
    rw [splitList]
    split
    · exact List.cons_ne_nil _ _
    · split <;> exact List.cons_ne_nil _ _

theorem not_mem_of_mem_splitList (h : part ∈ splitList c cs) : c ∉ part := by
  induction cs generalizing part with
  | nil =>
    rw [List.mem_singleton.mp h]
    exact List.not_mem_nil
  | cons x xs ih =>
    rw [splitList] at h
    split at h
    · rcases List.mem_cons.mp h with rfl | h
      · exact List.not_mem_nil
      · exact ih h
    · rename_i hx
      split at h
      · rw [List.mem_singleton.mp h, List.mem_singleton]
        exact Ne.symm hx
      · rename_i first rest hparts
        rcases List.mem_cons.mp h with rfl | h
        · rw [List.mem_cons, not_or]
          exact ⟨Ne.symm hx, ih (hparts ▸ List.mem_cons_self ..)⟩
        · exact ih (hparts ▸ List.mem_cons_of_mem _ h)

theorem flatMap_splitList (c : Char) (cs : List Char) :
    (splitList c cs).flatMap (c :: ·) = c :: cs := by
  induction cs with
  | nil => rfl
  | cons x xs ih =>
    rw [splitList]
    split
    · rename_i hx
      rw [List.flatMap_cons, ih, hx]
      rfl
    · obtain ⟨part, parts, hparts⟩ := List.exists_cons_of_ne_nil (splitList_ne_nil c xs)
      rw [hparts] at ih ⊢
      rw [List.flatMap_cons] at ih ⊢
      simpa using ih

theorem splitList_append (h : c ∉ part) (hrest : splitList c rest = [] :: parts) :
    splitList c (part ++ rest) = part :: parts := by
  induction part with
  | nil => exact hrest
  | cons x part ih =>
    rw [List.mem_cons, not_or] at h
    rw [List.cons_append, splitList, if_neg (Ne.symm h.1), ih h.2]

theorem splitList_flatMap (h : ∀ part ∈ parts, c ∉ part) :
    splitList c (parts.flatMap (c :: ·)) = [] :: parts := by
  induction parts with
  | nil => rfl
  | cons part parts ih =>
    rw [List.flatMap_cons, List.cons_append, splitList_cons_self,
      splitList_append (h part (List.mem_cons_self ..))
        (ih fun p hp => h p (List.mem_cons_of_mem _ hp))]

theorem splitList_of_not_mem (h : c ∉ cs) : splitList c cs = [cs] := by
  have hsplit : splitList c (cs ++ []) = [cs] := splitList_append h rfl
  rwa [List.append_nil] at hsplit

theorem splitList_append_cons (c : Char) (cs rest : List Char) :
    splitList c (cs ++ c :: rest) = splitList c cs ++ splitList c rest := by
  induction cs with
  | nil =>
    rw [List.nil_append, splitList_cons_self]
    rfl
  | cons x cs ih =>
    rw [List.cons_append, splitList, splitList, ih]
    split
    · rw [List.cons_append]
    · obtain ⟨part, parts, hparts⟩ := List.exists_cons_of_ne_nil (splitList_ne_nil c cs)
      rw [hparts]
      rfl

/-- What is put to the end of a list becomes the end of its last part. -/
theorem splitList_append_part (h : c ∉ part) (cs : List Char) :
    ∃ init last, splitList c (cs ++ part) = init ++ [last ++ part] := by
  induction cs with
  | nil => exact ⟨[], [], splitList_of_not_mem h⟩
  | cons x cs ih =>
    obtain ⟨init, last, hsplit⟩ := ih
    rw [List.cons_append, splitList, hsplit]
    split
    · exact ⟨[] :: init, last, rfl⟩
    · cases init with
      | nil => exact ⟨[], x :: last, rfl⟩
      | cons first init => exact ⟨(x :: first) :: init, last, rfl⟩

end ArchiveKeeper.Text
