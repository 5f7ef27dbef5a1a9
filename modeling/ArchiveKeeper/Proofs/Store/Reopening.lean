import ArchiveKeeper.Proofs.Files.Frame
import ArchiveKeeper.Proofs.Files.Parent
import ArchiveKeeper.Proofs.Store.DatabaseService
import ArchiveKeeper.Proofs.Store.Uses

namespace ArchiveKeeper.Store.Database

open Files Files.Tree Keyed

variable {place : Place} {files files' : Tree} {t t' : Table} {w : World}
  {request : Request} {c : Contents}

/-- The file of a place is at most one step away from the directory that it needs. -/
structure Sited (place : Place) : Prop where
  plainFolder : ∀ folder, place.folder = some folder → ∀ s ∈ folder, Path.IsPlain s
  plainNeeded : ∀ s ∈ place.needed, Path.IsPlain s
  plainFile : ∀ p, place.file = some p → ∀ s ∈ p, Path.IsPlain s
  file : ∀ p, place.file = some p →
    ∃ ss : List String, ss.length ≤ 1 ∧ p = ss.foldl Path.go place.needed

theorem sited_ofText {base : Path} (hbase : ∀ s ∈ base, Path.IsPlain s) (text : String) :
    Sited (.ofText base text) := by
  rw [Place.ofText]
  refine ⟨fun folder h => ?_, ?_, fun p h => ?_, fun p h => ?_⟩
  · dsimp only at h
    split at h
    · cases h
    · rw [← Option.some.inj h]
      exact Path.plain_resolve hbase _
  · dsimp only
    exact Path.plain_resolve hbase _
  · dsimp only at h
    split at h
    · cases h
    · rw [← Option.some.inj h]
      exact Path.plain_resolve hbase _
  · dsimp only at h ⊢
    split at h
    · cases h
    · rw [← Option.some.inj h]
      exact Path.resolve_parent base _

/-- A place was made ready for its table, and if it has a file, the table is in it. -/
structure Lasts (place : Place) (files : Tree) (t : Table) : Prop where
  folder : ∀ folder, place.folder = some folder →
    Reaches files folder ∧ files.node? folder = some .directory
  needed : ∀ p, place.file = some p →
    Reaches files place.needed ∧ files.node? place.needed ≠ none
  file : ∀ p, place.file = some p → Reaches files p ∧ files.node? p = some (.database t)

/-- With its next use, a store is at work on a table. -/
inductive Holds (place : Place) : World → Table → Prop
  | opened {files : Tree} {t : Table} (lasts : Lasts place files t) :
    Holds place (files, .opened t) t
  | closed {files : Tree} {t : Table} (lasts : Lasts place files t)
    (inMemory : place.file = none → t = []) : Holds place (files, .closed) t

/-- What a place has got a file for is not disturbed when a file is put where no directory is. -/
theorem Lasts.insert {p : Path} (hplace : place.file = some p)
    (hfolder : ∀ folder, place.folder = some folder →
      Reaches files folder ∧ files.node? folder = some .directory)
    (hneeded : Reaches files place.needed ∧ files.node? place.needed ≠ none)
    (hp : Reaches files p) (hd : files.node? p ≠ some .directory) :
    Lasts place (files.insert p (.database t)) t := by
  have hne : p ≠ [] := by
    rintro rfl
    exact hd node?_nil
  refine ⟨fun folder hf => ?_, fun _ _ => ⟨hneeded.1.insert hd, ?_⟩, fun p' hp' => ?_⟩
  · obtain ⟨hreach, hdir⟩ := hfolder folder hf
    refine ⟨hreach.insert hd, ?_⟩
    rw [node?_insert hne, if_neg, hdir]
    rintro rfl
    exact hd hdir
  · rw [node?_insert hne]
    split
    · simp
    · exact hneeded.2
  · obtain rfl : p = p' := Option.some.inj (hplace.symm.trans hp')
    exact ⟨hp.insert hd, by rw [node?_insert hne, if_pos rfl]⟩

/-- Where nothing is found at the path of the file, there is the directory for it. -/
theorem Sited.reaches_file {p : Path} (h : Sited place) (hplace : place.file = some p)
    (hneeded : Reaches files place.needed) (hthere : files.node? place.needed ≠ none)
    (hfind : files.find p = .error .notFound) : Reaches files p ∧ files.node? p = none := by
  have hnot {q : Path} (hq : q <+: place.needed) : files.find q ≠ .error .notFound :=
    find_ne_notFound_of_prefix hneeded hthere hq
  obtain ⟨ss, hss, rfl⟩ := h.file p hplace
  rcases ss with _ | ⟨s, _ | ⟨s', ss⟩⟩
  · exact absurd hfind (hnot (List.prefix_refl _))
  · rw [List.foldl_cons, List.foldl_nil, Path.go] at hfind ⊢
    split at hfind
    · exact absurd hfind (hnot (List.prefix_refl _))
    split at hfind
    · exact absurd hfind (hnot (List.dropLast_prefix _))
    · rename_i hdot hdots
      rw [if_neg hdot, if_neg hdots]
      exact reaches_of_notFound hneeded hthere ⟨hdot, hdots⟩ hfind
  · simp at hss

theorem lasts_of_openAt (hsited : Sited place) (hfolder : ∀ folder, place.folder = some folder →
      Reaches files folder ∧ files.node? folder = some .directory)
    (h : openAt place files = (.ok t, w)) : w.2 = .opened t ∧ Lasts place w.1 t := by
  unfold openAt at h
  split at h
  · rename_i hplace
    cases h
    exact ⟨rfl, hfolder, by simp [hplace], by simp [hplace]⟩
  rename_i p hplace
  split at h
  swap
  · cases h
  rename_i n hn
  have hneeded := reaches_of_find hsited.plainNeeded hn
  have hthere : files.node? place.needed ≠ none := by
    simp [node?_of_find hsited.plainNeeded hn]
  have hplain := hsited.plainFile p hplace
  unfold openFile at h
  split at h
  · rename_i table hfind
    cases h
    refine ⟨rfl, hfolder, fun _ _ => ⟨hneeded, hthere⟩, fun p' hp' => ?_⟩
    obtain rfl : p = p' := Option.some.inj (hplace.symm.trans hp')
    exact ⟨reaches_of_find hplain hfind, node?_of_find hplain hfind⟩
  · -- an empty file is taken for a database without tables
    rename_i content modified hfind
    split at h
    · cases h
      exact ⟨rfl, .insert hplace hfolder ⟨hneeded, hthere⟩ (reaches_of_find hplain hfind)
        (by simp [node?_of_find hplain hfind])⟩
    · cases h
  · rename_i hfind
    cases h
    obtain ⟨hreach, hnone⟩ := hsited.reaches_file hplace hneeded hthere hfind
    exact ⟨rfl, .insert hplace hfolder ⟨hneeded, hthere⟩ hreach (by simp [hnone])⟩
  · cases h
  · cases h

theorem lasts_of_table (hsited : Sited place) (h : table place (files, .closed) = (.ok t, w)) :
    w.2 = .opened t ∧ Lasts place w.1 t := by
  simp only [table] at h
  split at h
  · rename_i hfolder
    exact lasts_of_openAt hsited (by simp [hfolder]) h
  rename_i folder hfolder
  split at h
  · cases h
  rename_i files₁ hmade
  obtain ⟨-, hok⟩ := makeDirectories_spec (hsited.plainFolder folder hfolder) hmade
  refine lasts_of_openAt hsited (fun folder' hfolder' => ?_) h
  obtain rfl : folder = folder' := Option.some.inj (hfolder.symm.trans hfolder')
  exact hok rfl

theorem Lasts.save (h : Lasts place files t) (t' : Table) :
    Lasts place (Database.save place t' (files, .opened t)).1 t' := by
  unfold Database.save
  split
  · rename_i hplace
    exact ⟨h.folder, by simp [hplace], by simp [hplace]⟩
  · rename_i p hplace
    obtain ⟨hreach, hnode⟩ := h.file p hplace
    simp only [hnode]
    exact .insert hplace h.folder (h.needed p hplace) hreach (by simp [hnode])

namespace Holds

theorem lasts (h : Holds place w t) : Lasts place w.1 t := by
  cases h with
  | opened lasts => exact lasts
  | closed lasts => exact lasts

theorem table_eq (h : Holds place w t) : table place w = (.ok t, w.1, .opened t) := by
  cases h with
  | opened => rfl
  | @closed files t lasts inMemory =>
    have hopen : openAt place files = (.ok t, files, .opened t) := by
      unfold openAt
      split
      · rename_i hplace
        rw [inMemory hplace]
      · -- what was found or made when the store was first used is found again
        rename_i p hplace
        obtain ⟨hneeded, hthere⟩ := lasts.needed p hplace
        obtain ⟨n, hn⟩ := Option.ne_none_iff_exists'.mp hthere
        obtain ⟨hreach, hnode⟩ := lasts.file p hplace
        have hfind : files.find p = .ok (.database t) := by rw [hreach.find, hnode]
        rw [hneeded.find, hn]
        simp only [openFile, hfind]
    simp only [table]
    split
    · exact hopen
    · rename_i folder hfolder
      obtain ⟨hreach, hdir⟩ := lasts.folder folder hfolder
      rw [makeDirectories_of_there hreach hdir]
      exact hopen

theorem save (h : Holds place w t) (t' : Table) :
    Holds place (Database.save place t' (w.1, .opened t)) t' := by
  have hopen : (Database.save place t' (w.1, .opened t)).2 = .opened t' := connection_save
  have hlasts := h.lasts.save t'
  generalize Database.save place t' (w.1, .opened t) = w' at hopen hlasts
  obtain ⟨files, connection⟩ := w'
  cases hopen
  exact .opened hlasts

/-- After it was closed a store is at work on the same table, unless that was in memory. -/
theorem close (h : Holds place w t) :
    Holds place ((database place).close w).2 (if place.file.isSome then t else []) := by
  have hlasts := h.lasts
  show Holds place (w.1, .closed) _
  split
  · rename_i hfile
    exact .closed hlasts fun hnone => by simp [hnone] at hfile
  · rename_i hfile
    have hnone : place.file = none := by simpa using hfile
    exact .closed ⟨hlasts.folder, by simp [hnone], by simp [hnone]⟩ fun _ => rfl

end Holds

/-- A store that was never used before is at work on an empty table once it was reset. -/
theorem holds_of_reset (hsited : Sited place)
    (h : ((database place).reset (files, .closed)).1.outcome = .ok ()) :
    Holds place ((database place).reset (files, .closed)).2 [] := by
  obtain ⟨t, ⟨files', connection⟩, htable, hnext⟩ := reset_of_ok h
  obtain ⟨hopen, hlasts⟩ := lasts_of_table hsited htable
  cases hopen
  rw [hnext]
  exact (Holds.opened hlasts).save []

theorem Holds.ask (h : Holds place w t) (request : Request) :
    Holds place ((database place).ask w request).2 (tableAfter t request) := by
  rcases next_cases h.table_eq request with hnext | ⟨hnext, htable⟩
  · rw [hnext]
    exact h.save _
  · rw [hnext, htable]
    exact h

theorem Holds.outcome_get (h : Holds place w t) (path : String) :
    ((database place).get path w).1.outcome = .ok (t.get? path) :=
  Answer.document.inj (answer_of_table h.table_eq (.get path))

theorem Holds.outcome_holds (h : Holds place w t) (job : String) :
    ((database place).holds job w).1.outcome = .ok (t.hasOwned job) :=
  Answer.found.inj (answer_of_table h.table_eq (.holds job))

theorem Holds.outcome_listOverviews (h : Holds place w t) :
    ((database place).listOverviews w).1.outcome = .ok (Keyed.listOverviews t) :=
  Answer.overviews.inj (answer_of_table h.table_eq .listOverviews)

theorem Holds.following_eq (h : Holds place w t) (c : Contents) (request : Request) :
    c.following request ((database place).ask w request).1 = c.after request := by
  rw [answer_of_table h.table_eq]
  cases request with
  | put job path json =>
    by_cases ho : Job.owns job path
    · simp [answerFrom, ho, Contents.following]
    · simp [answerFrom, ho, Contents.following, Contents.after]
  | _ => rfl

/-- A store is at work on a table with the contents, or will be with its next use. -/
def Retains (place : Place) (c : Contents) (w : World) : Prop :=
  ∃ t, Holds place w t ∧ Ready t ∧ c.Alike (contents t)

namespace Retains

theorem of_reset (hsited : Sited place)
    (h : ((database place).reset (files, .closed)).1.outcome = .ok ()) :
    Retains place .empty ((database place).reset (files, .closed)).2 :=
  ⟨[], holds_of_reset hsited h, .nil, fun _ _ => shelf_nil, rfl⟩

theorem ask (h : Retains place c w) (about : request.AboutJobs) :
    Retains place (c.following request ((database place).ask w request).1)
      ((database place).ask w request).2 := by
  obtain ⟨t, hholds, hready, halike⟩ := h
  rw [hholds.following_eq]
  exact ⟨tableAfter t request, hholds.ask request, hready.after about, alike_after hready halike about⟩

theorem close (h : Retains place c w) :
    Retains place (if place.file.isSome then c else .empty) ((database place).close w).2 := by
  obtain ⟨t, hholds, hready, halike⟩ := h
  have hclosed := hholds.close
  split at hclosed
  · rename_i hfile
    rw [if_pos hfile]
    exact ⟨t, hclosed, hready, halike⟩
  · rename_i hfile
    rw [if_neg hfile]
    exact ⟨[], hclosed, .nil, fun _ _ => shelf_nil, rfl⟩

theorem through (h : Retains place c w) {uses : List Use} (about : ∀ use ∈ uses, use.AboutJobs) :
    Retains place ((database place).kept place.file.isSome c w uses)
      ((database place).through w uses) := by
  induction uses generalizing c w with
  | nil => exact h
  | cons use uses ih =>
    obtain ⟨habout, hrest⟩ := List.forall_mem_cons.mp about
    cases use with
    | ask request => exact ih (h.ask habout) hrest
    | close => exact ih h.close hrest

end Retains

end ArchiveKeeper.Store.Database
