import ArchiveKeeper.Job.Path
import ArchiveKeeper.Proofs.Text.Cut

namespace ArchiveKeeper

namespace Job

variable {job job' path : String}

/-- A path of the tree of a job. -/
def InTree (job path : String) : Prop := owns job path ∧ path ≠ overviewPath

theorem InTree.toList_eq (h : InTree job path) : ∃ rest,
    path.toList = "/jobs/".toList ++ job.toList ++ rest ∧
      (rest = [] ∨ ∃ cs, rest = '/' :: cs ∧ (Text.splitList '/' cs).all isProperSegment) := by
  obtain ⟨ho, hne⟩ := h
  simp only [owns, Bool.or_eq_true, beq_iff_eq, hne, false_or] at ho
  rcases ho with rfl | ho
  · exact ⟨[], by simp [root], .inl rfl⟩
  · split at ho
    · rename_i cs hafter
      have he := Text.after?_eq_some_iff.mp hafter
      refine ⟨'/' :: cs, ?_, .inr ⟨cs, rfl, ho⟩⟩
      rw [he]
      simp [root]
    · cases ho

theorem length_of_isId (h : isId job) : job.toList.length = 32 := by
  simp only [isId, Bool.and_eq_true, beq_iff_eq] at h
  exact h.1

theorem InTree.take (h : InTree job path) : path.toList.take 6 = "/jobs/".toList := by
  obtain ⟨rest, he, -⟩ := h.toList_eq
  rw [he, List.append_assoc, List.take_left' (by decide)]

theorem InTree.job_eq (hj : isId job) (hj' : isId job') (h : InTree job path)
    (h' : InTree job' path) : job = job' := by
  obtain ⟨rest, he, -⟩ := h.toList_eq
  obtain ⟨rest', he', -⟩ := h'.toList_eq
  rw [he, List.append_assoc, List.append_assoc] at he'
  have hlen : job.toList.length = job'.toList.length := by
    rw [length_of_isId hj, length_of_isId hj']
  exact String.toList_injective (List.append_inj_left (List.append_cancel_left he') hlen)

theorem owns_iff : owns job path ↔ path = overviewPath ∨ InTree job path := by
  unfold InTree
  by_cases h : path = overviewPath
  · simp [h, owns]
  · simp [h]

theorem owns_overviewPath : owns job overviewPath := owns_iff.mpr (.inl rfl)

end Job

end ArchiveKeeper
