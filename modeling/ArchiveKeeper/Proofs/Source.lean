import ArchiveKeeper.Fetch.Site
import ArchiveKeeper.Proofs.Store.Contract
import ArchiveKeeper.Proofs.Text.Cut

namespace ArchiveKeeper

open Files

variable {σ τ : Type} {a : Archive} {as : List Archive} {base : Path} {location start : String}

/-- An archive stands right at a location, under the id of its job. -/
def Location.Offers (l : Location) (a : Archive) : Prop :=
  Job.isId a.job ∧ a.path = match l with
    | .bucket b => b.start ++ a.job
    | .directory path => Path.join path a.job

namespace Source

namespace Bucket

theorem job?_eq_some {key job : String} (h : job? start key = some job) :
    key = start ++ job ∧ Job.isId job := by
  unfold job? at h
  split at h
  · rename_i name hafter
    split at h
    · rename_i hid
      obtain rfl := Option.some.inj h
      refine ⟨?_, hid⟩
      rw [← String.toList_inj, String.toList_append, String.toList_ofList]
      exact Text.after?_eq_some_iff.mp hafter
    · cases h
  · cases h

theorem offers_of_mem_archives {b : Location.Bucket} {objects : List StoredObject}
    (ha : a ∈ archives location b.start objects) : (Location.bucket b).Offers a := by
  obtain ⟨o, -, ha⟩ := List.mem_filterMap.mp ha
  obtain ⟨job, hj, rfl⟩ := Option.map_eq_some_iff.mp ha
  obtain ⟨hkey, hid⟩ := job?_eq_some hj
  exact ⟨hid, hkey⟩

end Bucket

namespace Directory

theorem offers_of_mem_archives {t : Tree} {directory : String} {entries : List (String × Node)}
    (h : (archives t base location directory entries).1 = .ok as) (ha : a ∈ as) :
    (Location.directory directory).Offers a := by
  induction entries generalizing as with
  | nil =>
    cases h
    cases ha
  | cons e rest ih =>
    obtain ⟨name, node⟩ := e
    rw [archives] at h
    split at h
    · exact ih h ha
    split at h
    · rename_i hid
      dsimp only at h
      split at h
      · cases hrest : (archives t base location directory rest).1 with
        | error e => simp [hrest, Except.map] at h
        | ok more =>
          simp only [hrest, Except.map, Except.ok.injEq] at h
          subst h
          rcases List.mem_cons.mp ha with rfl | ha
          · exact ⟨hid, rfl⟩
          · exact ih hrest ha
      · exact ih h ha
      · cases h
    · exact ih h ha

end Directory

/-- A source that stands on another one, and may fail where that would not. A removal that it fails
to do may yet have been done. -/
structure Falters {ρ : Type} (part : σ → ρ) (inner : Source ρ) (outer : Source σ) : Prop where
  list : ∀ w, Store.Answers part inner.list outer.list w ∨ ∃ e, (outer.list w).1.outcome = .error e
  remove : ∀ a w, Store.Answers part (inner.remove a) (outer.remove a) w ∨
    (∃ e, (outer.remove a w).1.outcome = .error e) ∧
      (part (outer.remove a w).2 = part w ∨
        part (outer.remove a w).2 = (inner.remove a (part w)).2)

theorem Falters.refl (s : Source σ) : Falters id s s where
  list _ := .inl ⟨rfl, rfl⟩
  remove _ _ := .inl ⟨rfl, rfl⟩

end Source

namespace Site

variable {objects : ObjectStore τ} {text : String} {l : Location}

/-- At a location of a site nothing was removed but what a path leads to. -/
inductive Lost (base : Path) (objects : ObjectStore τ) (path : String) :
    Location → Site τ → Site τ → Prop
  | object (b : Location.Bucket) (w : Site τ) :
    Lost base objects path (.bucket b) w (withObjects (objects.delete b.name path w.objects).2 w)
  | file (directory : String) {w : Site τ} {p : Path} {node : Node}
    (found : w.files.locate base path = .ok (p, node)) :
    Lost base objects path (.directory directory) w (withFiles (w.files.erase p) w)
  | nothing (l : Location) (w : Site τ) : Lost base objects path l w w

theorem offers_of_list {w : Site τ}
    (h : ((source base objects text l).list w).1.outcome = .ok as) (ha : a ∈ as) : l.Offers a := by
  cases l with
  | bucket b =>
    simp only [source, Source.bucket] at h
    split at h
    · cases h
    · cases h
      exact Source.Bucket.offers_of_mem_archives ha
  | directory directory =>
    simp only [source, Source.zoom, Operation.zoom, Source.directory, Source.Directory.list] at h
    split at h
    · split at h
      · rename_i hfound
        cases h
        exact Source.Directory.offers_of_mem_archives (congrArg Prod.fst hfound) ha
      · cases h
    · cases h

theorem lost_of_remove (w : Site τ) :
    Lost base objects a.path l w ((source base objects text l).remove a w).2 := by
  cases l with
  | bucket b =>
    have hw : ((source base objects text (.bucket b)).remove a w).2 =
        withObjects (objects.delete b.name a.path w.objects).2 w := by
      simp only [source, Source.bucket, ObjectStore.zoom, Operation.zoom]
      split <;> rename_i hreply <;> exact (Prod.mk.inj hreply).2.symm
    rw [hw]
    exact .object b w
  | directory directory =>
    have hw : ((source base objects text (.directory directory)).remove a w).2 =
        withFiles (Source.Directory.remove base a w.files).2 w := rfl
    rw [hw]
    unfold Source.Directory.remove
    split
    · exact .nothing _ w
    · exact .nothing _ w
    · rename_i hfound
      exact .file directory hfound
    · exact .nothing _ w

variable {s : Source σ} {part : σ → Site τ} {w : σ}

theorem offers_of_falters (h : Source.Falters part (source base objects text l) s)
    (hl : (s.list w).1.outcome = .ok as) (ha : a ∈ as) : l.Offers a := by
  rcases h.list w with ⟨ho, -⟩ | ⟨e, he⟩
  · exact offers_of_list (ho.symm.trans hl) ha
  · rw [hl] at he
    cases he

theorem lost_of_falters (h : Source.Falters part (source base objects text l) s) (a : Archive)
    (w : σ) : Lost base objects a.path l (part w) (part (s.remove a w).2) := by
  rcases h.remove a w with ⟨-, hw⟩ | ⟨-, hw | hw⟩
  · rw [hw]
    exact lost_of_remove (part w)
  · rw [hw]
    exact .nothing l (part w)
  · rw [hw]
    exact lost_of_remove (part w)

end Site

end ArchiveKeeper
