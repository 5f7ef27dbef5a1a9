import ArchiveKeeper.Proofs.Store.DatabaseService
import ArchiveKeeper.Proofs.Store.DirectoryService

namespace ArchiveKeeper.Store

variable {σ ρ : Type} {job path : String}

theorem Shelf.exists_of_ne_nil {docs : List Document} (h : docs ≠ []) :
    ∃ path, Shelf.ofDocuments docs path ≠ none := by
  obtain ⟨init, d, rfl⟩ := (List.eq_nil_or_concat docs).resolve_left h
  refine ⟨d.path, ?_⟩
  rw [ofDocuments, List.concat_eq_append, List.foldl_concat, file, if_pos rfl]
  exact Option.some_ne_none _

/-- A store that finds what a job has filed, among which are only documents of its own. -/
structure Finds (S : Store ρ) (V : View ρ) : Prop where
  owned : ∀ job path w, V.shelf job w path ≠ none → Job.owns job path
  answers : ∀ job w, Job.isId job → V.ready w → V.visible job →
    ∃ found, (S.holds job w).1.outcome = .ok found
  found : ∀ job path w, Job.isId job → V.ready w → V.shelf job w path ≠ none →
    (S.holds job w).1.outcome ≠ .ok false

theorem Finds.zoom {S : Store ρ} {V : View ρ} (h : Finds S V) {part : σ → ρ} {set : ρ → σ → σ} :
    Finds (S.zoom part set) (V.zoom part) where
  owned job path w := h.owned job path (part w)
  answers job w := h.answers job (part w)
  found job path w := h.found job path (part w)

theorem Finds.bindBackend {S : Store ρ} {V : View ρ} (h : Finds S V) : Finds S.bindBackend V :=
  ⟨h.owned, h.answers, h.found⟩

open Database in
theorem database_finds (place : Place) : Finds (database place) Database.view where
  owned job path w h := by
    cases hw : w.2 with
    | opened t =>
      rw [shelf_view hw] at h
      by_contra hno
      exact h (if_neg hno)
    | closed => simp [Database.view, hw, Shelf.empty] at h
    | broken => simp [Database.view, hw, Shelf.empty] at h
  answers job w _ hw _ := by
    obtain ⟨t, ht, -⟩ := hw
    exact ⟨_, Answer.found.inj (answer_ask ht (.holds job))⟩
  found job path w hj hw h := by
    obtain ⟨t, ht, hready⟩ := hw
    rw [shelf_view ht] at h
    have hown : t.hasOwned job = true := (hready.hasOwned_iff hj).mpr ⟨path, h⟩
    rw [Answer.found.inj (answer_ask ht (.holds job)), hown]
    simp

open Directory Files in
theorem directory_finds (root : Path) : Finds (directory root) (Directory.view root) where
  owned job path t h := owns_of_filed h
  answers job t hj hready hvisible := by
    rw [outcome_holds, holds_eq hj hready hvisible]
    exact ⟨_, rfl⟩
  found job path t hj hready h := by
    rw [outcome_holds, ne_eq, lift_eq_ok_iff]
    by_cases hacc : Tree.accept (Path.text (overviewFile root job)) = .ok ()
    · obtain ⟨p, hp, hn⟩ := there_of_filed hj hready h
      rw [holds_eq hj hready hacc, Except.ok.injEq, ← Bool.not_eq_true, not_not, List.any_eq_true]
      exact ⟨p, hp, Option.isSome_iff_ne_none.mpr hn⟩
    · obtain ⟨e, he⟩ := holds_of_refused (t := t) hacc
      rw [he]
      exact nofun

/-- There is a document of a job in a store: one that is read at its path, or an overview. -/
def Stocks (S : Store ρ) (job : String) (w : ρ) : Prop :=
  (∃ path text, Job.InTree job path ∧ (S.get path w).1.outcome = .ok (some text)) ∨
    ∃ os json, (S.listOverviews w).1.outcome = .ok os ∧ ⟨job, json⟩ ∈ os

theorem Keeps.stocks {S : Store ρ} {V : View ρ} {w : ρ} (keeps : Keeps S V) (finds : Finds S V)
    (hj : Job.isId job) (hw : V.ready w) (h : V.shelf job w path ≠ none) : Stocks S job w := by
  obtain ⟨text, htext⟩ := Option.ne_none_iff_exists'.mp h
  rcases Job.owns_iff.mp (finds.owned job path w h) with rfl | hin
  · obtain ⟨os, hos, hmem⟩ := keeps.overviews w hw
    exact .inr ⟨os, text, hos, (hmem job hj text).mpr htext⟩
  · exact .inl ⟨path, text, hin, (keeps.get job path w hj hw hin text).mpr htext⟩

end ArchiveKeeper.Store
