import ArchiveKeeper.Files.Path
import ArchiveKeeper.Proofs.Text.Cut
import Mathlib.Algebra.GroupWithZero.Nat
import Mathlib.Tactic.Common

namespace ArchiveKeeper.Files.Path

variable {p q : Path} {s : String} {ss : List String}

/-- A segment that leads to an entry of a directory. -/
def IsPlain (s : String) : Prop := s ≠ "." ∧ s ≠ ".."

structure IsProper (s : String) : Prop where
  plain : IsPlain s
  nonempty : s ≠ ""
  whole : '/' ∉ s.toList

theorem prefix_dropLast (h : p <+: q) (hne : p ≠ q) : p <+: q.dropLast := by
  rcases List.eq_nil_or_concat q with rfl | ⟨above, s, rfl⟩
  · exact absurd (List.prefix_nil.mp h) hne
  · rw [List.concat_eq_append] at h hne ⊢
    rw [List.dropLast_concat]
    exact (List.prefix_concat_iff.mp h).resolve_left hne

theorem intercalate_append (hp : p ≠ []) (hq : q ≠ []) :
    "/".intercalate (p ++ q) = "/".intercalate p ++ "/" ++ "/".intercalate q := by
  induction p with
  | nil => exact absurd rfl hp
  | cons a p ih =>
    cases p with
    | nil =>
      obtain ⟨b, q, rfl⟩ := List.exists_cons_of_ne_nil hq
      rw [List.singleton_append, String.intercalate_cons_cons, String.intercalate_singleton]
    | cons b p =>
      rw [List.cons_append, List.cons_append, String.intercalate_cons_cons, ← List.cons_append,
        ih (List.cons_ne_nil b p), String.intercalate_cons_cons]
      simp only [String.append_assoc]

theorem text_append (hp : p ≠ []) (hq : q ≠ []) : text (p ++ q) = text p ++ text q := by
  simp only [text, intercalate_append hp hq, String.append_assoc]

theorem text_singleton (s : String) : text [s] = "/" ++ s := by
  rw [text, String.intercalate_singleton]

theorem text_cons (s : String) (hp : p ≠ []) : text (s :: p) = "/" ++ s ++ text p := by
  rw [← text_singleton, ← text_append (List.cons_ne_nil s []) hp, List.singleton_append]

theorem toList_text (hp : p ≠ []) : (text p).toList = p.flatMap fun s => '/' :: s.toList := by
  induction p with
  | nil => exact absurd rfl hp
  | cons s p ih =>
    by_cases hp : p = []
    · simp [hp, text_singleton, String.toList_append]
    · rw [text_cons s hp, String.toList_append, String.toList_append, ih hp, List.flatMap_cons]
      rfl

theorem byteCount_text (hp : p ≠ []) :
    Text.byteCount (text p) = (p.map fun s => Text.byteCount s + 1).sum := by
  have hslash : "/".utf8ByteSize = 1 := by decide
  induction p with
  | nil => exact absurd rfl hp
  | cons s p ih =>
    rw [Text.byteCount] at ih ⊢
    rw [List.map_cons, List.sum_cons, Text.byteCount]
    by_cases hp : p = []
    · rw [hp, text_singleton, String.utf8ByteSize_append, List.map_nil, List.sum_nil]
      omega
    · rw [text_cons s hp, String.utf8ByteSize_append, String.utf8ByteSize_append, ih hp]
      omega

theorem foldl_go (h : ∀ s ∈ ss, IsPlain s) (p : Path) : ss.foldl go p = p ++ ss := by
  induction ss generalizing p with
  | nil => rw [List.foldl_nil, List.append_nil]
  | cons s ss ih =>
    have hs := h s (List.mem_cons_self ..)
    rw [List.foldl_cons, go, if_neg hs.1, if_neg hs.2,
      ih (fun s' hs' => h s' (List.mem_cons_of_mem _ hs')), List.append_assoc, List.singleton_append]

/-- What is true of a base and of what is gone to is true of where the way ends. -/
theorem forall_mem_foldl_go {P : String → Prop} (hp : ∀ s ∈ p, P s)
    (hss : ∀ s ∈ ss, IsPlain s → P s) : ∀ s ∈ ss.foldl go p, P s := by
  induction ss generalizing p with
  | nil => exact hp
  | cons s ss ih =>
    obtain ⟨hs, hss⟩ := List.forall_mem_cons.mp hss
    rw [List.foldl_cons]
    refine ih (fun s' hs' => ?_) hss
    unfold go at hs'
    split at hs'
    · exact hp s' hs'
    split at hs'
    · exact hp s' (List.dropLast_subset p hs')
    · rename_i hdot hdots
      rcases List.mem_append.mp hs' with hs' | hs'
      · exact hp s' hs'
      · rw [List.mem_singleton.mp hs']
        exact hs ⟨hdot, hdots⟩

theorem forall_mem_resolve {P : String → Prop} {text : String} (h : ∀ s ∈ p, P s)
    (hsegments : ∀ s ∈ segments text, IsPlain s → P s) : ∀ s ∈ resolve p text, P s := by
  unfold resolve
  split
  · exact forall_mem_foldl_go (by simp) hsegments
  · exact forall_mem_foldl_go h hsegments

theorem plain_resolve (h : ∀ s ∈ p, IsPlain s) (text : String) :
    ∀ s ∈ resolve p text, IsPlain s :=
  forall_mem_resolve h fun _ _ hplain => hplain

theorem split_flatMap {text : String} (h : ∀ s ∈ ss, '/' ∉ s.toList)
    (ht : text.toList = ss.flatMap fun s => '/' :: s.toList) : Text.split '/' text = "" :: ss := by
  have hparts : ∀ part ∈ ss.map String.toList, '/' ∉ part := List.forall_mem_map.mpr h
  have hcut := Text.splitList_flatMap hparts
  rw [List.flatMap_map, ← ht] at hcut
  rw [Text.split, hcut, List.map_cons, List.map_map]
  exact congrArg _ ((List.map_congr_left fun s _ => String.ofList_toList).trans (List.map_id ss))

theorem segments_eq {text : String} (h : ∀ s ∈ ss, IsProper s)
    (ht : '/' :: text.toList = ss.flatMap fun s => '/' :: s.toList) : segments text = ss := by
  have hsplit : Text.split '/' (String.ofList ('/' :: text.toList)) = "" :: ss :=
    split_flatMap (fun s hs => (h s hs).whole) (by rwa [String.toList_ofList])
  rw [Text.split, String.toList_ofList, Text.splitList_cons_self, List.map_cons] at hsplit
  rw [segments, Text.split, List.tail_eq_of_cons_eq hsplit, List.filter_eq_self]
  simpa using fun s hs => (h s hs).nonempty

theorem segments_of_proper (h : IsProper s) : segments s = [s] :=
  segments_eq (by simpa using h) (by simp)

end ArchiveKeeper.Files.Path
