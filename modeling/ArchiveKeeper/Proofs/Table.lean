import ArchiveKeeper.Table
import Mathlib.Data.List.Basic

namespace ArchiveKeeper.Table

variable {t : Table} {row r : Row} {key job value : String}

def Sorted (t : Table) : Prop := t.Pairwise (·.key < ·.key)

theorem mem_of_mem_insert (h : r ∈ t.insert row) : r = row ∨ r ∈ t := by
  induction t with
  | nil => exact .inl (List.mem_singleton.mp h)
  | cons r' t ih =>
    rw [insert] at h
    split at h
    · exact List.mem_cons.mp h
    split at h
    · exact (List.mem_cons.mp h).imp_right (List.mem_cons_of_mem _)
    · rcases List.mem_cons.mp h with rfl | h
      · exact .inr (List.mem_cons_self ..)
      · exact (ih h).imp_right (List.mem_cons_of_mem _)

theorem Sorted.insert (h : t.Sorted) : (t.insert row).Sorted := by
  induction t with
  | nil => exact List.pairwise_singleton _ _
  | cons r t ih =>
    obtain ⟨hr, ht⟩ := List.pairwise_cons.mp h
    rw [Table.insert]
    split
    · rename_i hlt
      refine List.pairwise_cons.mpr ⟨fun r' hr' => ?_, h⟩
      rcases List.mem_cons.mp hr' with rfl | hr'
      · exact hlt
      · exact String.lt_trans hlt (hr r' hr')
    split
    · rename_i heq
      exact List.pairwise_cons.mpr ⟨fun r' hr' => heq ▸ hr r' hr', ht⟩
    · rename_i hlt hne
      refine List.pairwise_cons.mpr ⟨fun r' hr' => ?_, ih ht⟩
      rcases mem_of_mem_insert hr' with rfl | hr'
      · exact Std.lt_of_le_of_ne (String.not_lt.mp hlt) (Ne.symm hne)
      · exact hr r' hr'

theorem Sorted.eraseOwned (h : t.Sorted) (job : String) : (t.eraseOwned job).Sorted :=
  List.Pairwise.filter _ h

theorem Sorted.erase (h : t.Sorted) (key : String) : (t.erase key).Sorted :=
  List.Pairwise.filter _ h

theorem get?_cons : get? key (r :: t) = if r.key = key then some r.value else get? key t := by
  unfold get?
  by_cases h : r.key = key <;> simp [h]

theorem get?_insert :
    get? key (t.insert row) = if row.key = key then some row.value else get? key t := by
  induction t with
  | nil => exact get?_cons
  | cons r t ih =>
    rw [insert]
    split
    · exact get?_cons
    split
    · rename_i heq
      rw [get?_cons, get?_cons, heq]
      split <;> rfl
    · rename_i hne
      rw [get?_cons, get?_cons, ih]
      by_cases hr : r.key = key
      · rw [if_pos hr, if_pos hr, if_neg fun he => hne (he.trans hr.symm)]
      · rw [if_neg hr, if_neg hr]

theorem get?_eq_some_iff (h : t.Sorted) :
    get? key t = some value ↔ ∃ r ∈ t, r.key = key ∧ r.value = value := by
  induction t with
  | nil => simp [get?]
  | cons r t ih =>
    obtain ⟨hr, ht⟩ := List.pairwise_cons.mp h
    rw [get?_cons, List.exists_mem_cons_iff, ← ih ht]
    split
    · rename_i hk
      have hnone : get? key t ≠ some value := by
        rw [Ne, ih ht]
        rintro ⟨r', hr', hk', -⟩
        exact String.ne_of_lt (hr r' hr') (hk.trans hk'.symm)
      simp [hk, hnone]
    · rename_i hk
      simp [hk]

theorem hasOwned_iff : t.hasOwned job ↔ ∃ r ∈ t, r.owner = some job := by
  simp [hasOwned]

theorem mem_eraseOwned : r ∈ t.eraseOwned job ↔ r ∈ t ∧ r.owner ≠ some job := by
  simp [eraseOwned]

theorem not_hasOwned_eraseOwned : ¬ (t.eraseOwned job).hasOwned job := by
  intro hown
  obtain ⟨r, hr, ho⟩ := hasOwned_iff.mp hown
  exact (mem_eraseOwned.mp hr).2 ho

theorem get?_eraseOwned (h : t.Sorted) (hr : ∀ r ∈ t, r.key = key → r.owner ≠ some job) :
    get? key (t.eraseOwned job) = get? key t := by
  ext value
  rw [get?_eq_some_iff h, get?_eq_some_iff (h.eraseOwned job)]
  refine exists_congr fun r => ?_
  rw [mem_eraseOwned, and_assoc]
  refine and_congr_right fun hm => ?_
  rw [and_iff_right_iff_imp]
  exact fun hk => hr r hm hk.1

theorem get?_erase {key' : String} :
    get? key' (t.erase key) = if key' = key then none else get? key' t := by
  rw [get?, erase, List.find?_filter]
  split
  · rename_i he
    rw [Option.map_eq_none_iff, List.find?_eq_none]
    simp [he]
  · rename_i hne
    rw [get?]
    congr 2
    funext r
    by_cases hr : r.key = key'
    · simp [hr, hne]
    · simp [hr]

theorem mem_range {low high : String} :
    r ∈ t.range low high ↔ r ∈ t ∧ ¬ r.key < low ∧ r.key < high := by
  simp only [range, List.mem_filter, decide_eq_true_eq]

end ArchiveKeeper.Table
