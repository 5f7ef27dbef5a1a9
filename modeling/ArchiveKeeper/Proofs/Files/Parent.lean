import ArchiveKeeper.Proofs.Files.Path
import Mathlib.Data.List.DropRight

namespace ArchiveKeeper.Files.Path

variable {cs tail : List Char}

theorem segments_append_slash (cs rest : List Char) :
    segments (String.ofList (cs ++ '/' :: rest)) =
      segments (String.ofList cs) ++ segments (String.ofList rest) := by
  simp only [segments, Text.split, String.toList_ofList, Text.splitList_append_cons,
    List.map_append, List.filter_append]

theorem segments_append_slashes (h : ∀ c ∈ tail, c = '/') (cs : List Char) :
    segments (String.ofList (cs ++ tail)) = segments (String.ofList cs) := by
  induction tail generalizing cs with
  | nil => rw [List.append_nil]
  | cons c tail ih =>
    obtain ⟨rfl, htail⟩ := List.forall_mem_cons.mp h
    have hnone : segments (String.ofList tail) = [] := ih htail []
    rw [segments_append_slash, hnone, List.append_nil]

theorem length_segments_le (h : '/' ∉ cs) : (segments (String.ofList cs)).length ≤ 1 := by
  rw [segments, Text.split, String.toList_ofList, Text.splitList_of_not_mem h]
  exact List.length_filter_le _ _

theorem dropRightWhile_append (p : Char → Bool) (cs : List Char) :
    ∃ tail, Text.dropRightWhile p cs ++ tail = cs ∧ ∀ c ∈ tail, p c :=
  ⟨cs.rtakeWhile p, List.rdropWhile_append_rtakeWhile, fun _ => List.mem_rtakeWhile_imp⟩

/-- What is left when a last name was taken off is empty or has a slash at its end. -/
theorem dropRightWhile_name (cs : List Char) : Text.dropRightWhile (· ≠ '/') cs = [] ∨
    ∃ init, Text.dropRightWhile (· ≠ '/') cs = init ++ ['/'] := by
  by_cases hnil : Text.dropRightWhile (· ≠ '/') cs = []
  · exact .inl hnil
  have hlast : ¬ decide (List.getLast _ hnil ≠ '/') = true := List.rdropWhile_last_not _ _ hnil
  have hslash : List.getLast _ hnil = '/' := by simpa using hlast
  have hconcat := List.dropLast_concat_getLast hnil
  rw [hslash] at hconcat
  exact .inr ⟨_, hconcat.symm⟩

/-- A text is its directory part, slashes, a name, and slashes again, but for what is not there. -/
theorem parent_parts (s : String) : ∃ kept mid name slashes : List Char,
    s.toList = kept ++ (mid ++ (name ++ slashes)) ∧ (∀ c ∈ mid, c = '/') ∧ '/' ∉ name ∧
      (∀ c ∈ slashes, c = '/') ∧ (kept ++ mid = [] ∨ ∃ init, kept ++ mid = init ++ ['/']) ∧
      parent s = if kept ≠ [] then String.ofList kept
        else if s.toList.head? = some '/' then "/" else "." := by
  obtain ⟨slashes, hslashes, hall⟩ := dropRightWhile_append (· == '/') s.toList
  obtain ⟨name, hname, hwhole⟩ := dropRightWhile_append (· ≠ '/')
    (Text.dropRightWhile (· == '/') s.toList)
  obtain ⟨mid, hmid, hall'⟩ := dropRightWhile_append (· == '/')
    (Text.dropRightWhile (· ≠ '/') (Text.dropRightWhile (· == '/') s.toList))
  refine ⟨_, mid, name, slashes, ?_, fun c hc => ?_, fun hc => ?_, fun c hc => ?_, ?_, by rw [parent]⟩
  · rw [← List.append_assoc, hmid, ← List.append_assoc, hname, hslashes]
  · simpa using hall' c hc
  · simpa using hwhole '/' hc
  · simpa using hall c hc
  · rw [hmid]
    exact dropRightWhile_name _

/-- From the directory part of a text it is one step at most to what the text names. -/
theorem resolve_parent (base : Path) (s : String) : ∃ ss : List String, ss.length ≤ 1 ∧
    resolve base s = ss.foldl go (resolve base (parent s)) := by
  obtain ⟨kept, mid, name, slashes, hs, hmid, hname, hslashes, hend, hparent⟩ := parent_parts s
  refine ⟨segments (String.ofList name), length_segments_le hname, ?_⟩
  have hsegments : segments s = segments (String.ofList kept) ++ segments (String.ofList name) := by
    rw [← segments_append_slashes hmid kept, ← String.ofList_toList (s := s), hs,
      ← List.append_assoc, ← List.append_assoc, segments_append_slashes hslashes]
    rcases hend with hnil | ⟨init, hinit⟩
    · rw [hnil]
      rfl
    · rw [hinit, List.append_assoc, List.singleton_append, segments_append_slash,
        segments_append_slashes (by simp)]
  -- an empty directory part stands for the root or for the base, as the text is absolute or not
  have hstart : resolve base (parent s) =
      (segments (String.ofList kept)).foldl go (if isAbsolute s then [] else base) := by
    rw [hparent]
    by_cases hkept : kept = []
    · have hnone : segments (String.ofList kept) = [] := by
        rw [hkept]
        rfl
      rw [hnone, if_neg (not_not.mpr hkept), isAbsolute]
      by_cases habsolute : s.toList.head? = some '/'
      · rw [if_pos habsolute, habsolute]
        rfl
      · rw [if_neg habsolute, decide_eq_false habsolute]
        rfl
    · have habsolute : isAbsolute (String.ofList kept) = isAbsolute s := by
        rw [isAbsolute, isAbsolute, String.toList_ofList, hs, List.head?_append_of_ne_nil _ hkept]
      rw [if_pos hkept, resolve, habsolute]
  rw [resolve, hsegments, List.foldl_append, hstart]

end ArchiveKeeper.Files.Path
