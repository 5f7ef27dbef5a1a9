import ArchiveKeeper.Proofs.Files.Tree
import Mathlib.Data.List.Nodup

namespace ArchiveKeeper.Files.Tree

variable {t t' : Tree} {p q : Path} {n : Node}

def Distinct (p : Path) (t : Tree) : Prop :=
  ((t.nodes.map Prod.fst).filter fun q => q ≠ [] ∧ q.dropLast = p).Nodup

theorem distinct_of_no_entry (h : ∀ name, t.node? (p ++ [name]) = none) : Distinct p t := by
  have hnone : (t.nodes.map Prod.fst).filter (fun q => q ≠ [] ∧ q.dropLast = p) = [] := by
    rw [List.filter_eq_nil_iff]
    intro q hq hqp
    obtain ⟨hne, rfl⟩ := of_decide_eq_true hqp
    have hn := h (q.getLast hne)
    rw [List.dropLast_concat_getLast hne, node?_of_ne_nil hne, Option.map_eq_none_iff,
      List.find?_eq_none] at hn
    obtain ⟨m, hm, rfl⟩ := List.mem_map.mp hq
    exact hn m hm (decide_eq_true rfl)
  rw [Distinct, hnone]
  exact List.nodup_nil

theorem perm_entries (t : Tree) (p : Path) :
    ((t.entries p).map fun e => p ++ [e.1]).Perm
      ((t.nodes.map Prod.fst).filter fun q => q ≠ [] ∧ q.dropLast = p) := by
  refine ((List.mergeSort_perm _ _).map _).trans (.of_eq ?_)
  induction t.nodes with
  | nil => rfl
  | cons m ms ih =>
    obtain ⟨q, n⟩ := m
    rw [List.map_cons, List.filter_cons, List.filterMap_cons, ← ih]
    rcases List.eq_nil_or_concat q with rfl | ⟨init, name, rfl⟩
    · rfl
    by_cases hp : init = p
    · simp [hp]
    · simp [hp]

namespace Distinct

theorem filter (h : Distinct p t) (kept : Path × Node → Bool) :
    Distinct p ⟨t.nodes.filter kept⟩ :=
  h.sublist ((List.filter_sublist.map Prod.fst).filter _)

theorem erase (h : Distinct p t) (q : Path) : Distinct p (t.erase q) := h.filter _

theorem eraseBelow (h : Distinct p t) (q : Path) : Distinct p (t.eraseBelow q) := h.filter _

theorem insert (h : Distinct p t) (q : Path) (n : Node) : Distinct p (t.insert q n) := by
  have hold := h.erase q
  rw [Distinct] at hold ⊢
  rw [Tree.insert, List.map_cons, List.filter_cons]
  split
  · refine List.nodup_cons.mpr ⟨fun hq => ?_, hold⟩
    -- what had the path before was taken out
    obtain ⟨m, hm, he⟩ := List.mem_map.mp (List.mem_filter.mp hq).1
    rw [Tree.erase, List.mem_filter] at hm
    exact of_decide_eq_true hm.2 he
  · exact hold

theorem makeDirectoriesFrom {rest : List String} (h : Distinct p t) (here : Path) :
    Distinct p (t.makeDirectoriesFrom here rest).2 := by
  induction rest generalizing t here with
  | nil => exact h
  | cons s rest ih =>
    rw [Tree.makeDirectoriesFrom]
    split
    · exact h
    dsimp only
    split
    · exact ih h _
    · exact h
    · exact ih (h.insert _ _) _

theorem makeDirectories (h : Distinct p t) (q : Path) : Distinct p (t.makeDirectories q).2 := by
  rw [Tree.makeDirectories]
  split
  · exact h
  · exact h.makeDirectoriesFrom []

theorem replace (h : Distinct p t) (q : Path) (text : String) :
    Distinct p (t.replace q text).2 := by
  unfold Tree.replace
  dsimp only
  split
  · exact h
  split
  · exact h
  split
  · exact h
  split
  · exact h
  · exact h.insert _ _

theorem remove (h : Distinct p t) (q : Path) : Distinct p (t.remove q).2 := by
  unfold Tree.remove
  split
  · exact h
  · exact h
  · exact h
  · exact h.erase q

theorem removeAll (h : Distinct p t) (q : Path) : Distinct p (t.removeAll q).2 := by
  unfold Tree.removeAll
  split
  · exact h
  · exact h
  · exact h.eraseBelow q

theorem pairwise_entries_lt (h : Distinct p t) :
    ((t.entries p).map Prod.fst).Pairwise (· < ·) := by
  have hnodup : ((t.entries p).map Prod.fst).Nodup := by
    have hpaths := (perm_entries t p).nodup_iff.mpr h
    exact List.pairwise_map.mpr ((List.pairwise_map.mp hpaths).imp fun hne he => hne (by rw [he]))
  exact (pairwise_entries.and hnodup).imp fun h => Std.lt_of_le_of_ne h.1 h.2

end Distinct

end ArchiveKeeper.Files.Tree
