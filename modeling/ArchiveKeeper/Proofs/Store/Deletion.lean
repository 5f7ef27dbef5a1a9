import ArchiveKeeper.Proofs.Store.JobIndependence
import ArchiveKeeper.Proofs.Store.Reached

namespace ArchiveKeeper

namespace Store

variable {σ ρ : Type} {part : σ → ρ} {inner : Store ρ} {outer : Store σ} {w : σ} {job : String}
  {takes : String → Prop} {visible : Prop}

/-- A job is deleted. Nothing is found of it then, under all paths that the system takes and, where it
can be told, as such; all other answers are what they were. -/
structure Deletes (S : Store ρ) (job : String) (takes : String → Prop) (visible : Prop) (w : ρ) :
    Prop where
  done : (S.delete job w).1.outcome = .ok ()
  unfound : ∀ path, Job.InTree job path → takes path →
    (S.get path (S.delete job w).2).1.outcome = .ok none
  absent : visible → (S.holds job (S.delete job w).2).1.outcome = .ok false
  /-- Of the overviews that were listed, those of others are listed still. -/
  listed : ∃ os, (S.listOverviews w).1.outcome = .ok os ∧
    (S.listOverviews (S.delete job w).2).1.outcome = .ok (os.filter fun o => o.job ≠ job)
  combined : (S.get Job.overviewPath (S.delete job w).2).1.outcome =
    (S.get Job.overviewPath w).1.outcome
  found : ∀ job' path, Job.isId job' → job' ≠ job → Job.InTree job' path →
    (S.get path (S.delete job w).2).1.outcome = (S.get path w).1.outcome
  held : ∀ job', Job.isId job' → job' ≠ job →
    (S.holds job' (S.delete job w).2).1.outcome = (S.holds job' w).1.outcome

theorem Acts.deletes (h : Acts part inner outer)
    (hdeletes : Deletes inner job takes visible (part w)) : Deletes outer job takes visible w := by
  have hnext := h.next_delete job w
  obtain ⟨hdone, hunfound, habsent, hlisted, hcombined, hfound, hheld⟩ := hdeletes
  refine ⟨?_, fun path => ?_, ?_, ?_, ?_, fun job' path => ?_, fun job' => ?_⟩
  · rwa [h.outcome_delete]
  · rw [h.outcome_get, hnext]
    exact hunfound path
  · rwa [h.outcome_holds, hnext]
  · rwa [h.outcome_listOverviews, h.outcome_listOverviews, hnext]
  · rwa [h.outcome_get, h.outcome_get, hnext]
  · rw [h.outcome_get, h.outcome_get, hnext]
    exact hfound job' path
  · rw [h.outcome_holds, h.outcome_holds, hnext]
    exact hheld job'

/-- Overviews are listed without those of a job, where only these were taken out. -/
theorem filter_of_ascending {os os' : List StoredOverview}
    (h : os.Pairwise fun o o' => o.job < o'.job) (h' : os'.Pairwise fun o o' => o.job < o'.job)
    (hmem : ∀ o, o ∈ os' ↔ o ∈ os ∧ o.job ≠ job) : os' = os.filter fun o => o.job ≠ job :=
  Contents.eq_of_ascending h' (h.filter _) fun o => by simp [hmem]

namespace Directory

open Files Files.Tree

variable {root : Path} {path : String} {t t₀ : Tree} {c : Contents}
  {tries : String → List String}

theorem get_of_bare (hready : Ready root t) (hroot : ∀ s ∈ root, Path.IsPlain s) (hj : Job.isId job)
    (hb : ∀ q, Area root job q → t.node? q = none) (hin : Job.InTree job path)
    (hlegible : Legible root path) : Directory.get root path t = .ok none := by
  obtain ⟨q, htarget, hq⟩ := target?_of_owns hj hin.1 root
  have hfile : documentFile? root path = some q := by rw [← target?_eq_documentFile? hin, htarget]
  obtain ⟨hacc, hshort⟩ := hlegible q hfile
  have hnone : t.node? q = none := hb q hq.area
  -- on the way there are the directories of the store, and then nothing
  have hget : Directory.get root path t = .ok (text? t q) := by
    refine get_eq hready hq.area.within hfile (hq.plain hroot) hshort hacc (fun r hr hne => ?_)
      (by simp [hnone])
    rcases hq.above r (Path.prefix_dropLast hr hne) with ha | ha | ⟨r', rfl⟩
    · exact .inr (hready.above (.inl ha))
    · exact .inr (hready.above (.inr ha))
    · exact .inl (hb _ (.below r'))
  rw [hget, text?, hnone]

/-- The overview of a deleted job is no longer listed, and all others are. -/
theorem listed_delete (hroot : ∀ s ∈ root, Path.IsPlain s) (hj : Job.isId job) (hneat : Neat root t)
    (hdistinct : Distinct (overviews root) t) : ∃ os, Directory.listOverviews root t = .ok os ∧
      Directory.listOverviews root (Directory.delete root job t).2 =
        .ok (os.filter fun o => o.job ≠ job) := by
  obtain ⟨-, hsame, hgone⟩ := ready_delete hroot hj hneat.ready
  have hneat' := neat_delete hroot hj hneat
  have hdistinct' : Distinct (overviews root) (Directory.delete root job t).2 :=
    distinct_delete hj hdistinct
  obtain ⟨os, hos, hascending, hmem⟩ := hneat.ascending hroot hdistinct
  obtain ⟨os', hos', hascending', hmem'⟩ := hneat'.ascending hroot hdistinct'
  refine ⟨os, hos, ?_⟩
  rw [hos', ← filter_of_ascending hascending hascending' fun o => ?_]
  rw [hmem, hmem', and_assoc]
  refine and_congr_right fun hj' => ?_
  by_cases he : o.job = job
  · simp [he, shelf_of_bare hj hgone, Shelf.empty]
  · rw [shelf_congr hj' fun q hq => hsame q (hq.not_area_of_prefix hj hj' he (List.prefix_refl q))]
    simp [he]

theorem Orderly.deletes (h : Orderly root t₀ c tries t) (hroot : ∀ s ∈ root, Path.IsPlain s)
    (hj : Job.isId job) : Deletes (directory root) job (Legible root)
      (accept (Path.text (overviewFile root job)) = .ok ()) t := by
  obtain ⟨hready', hsame, hgone⟩ := ready_delete hroot hj h.ready
  have hdelete : ((directory root).delete job t).2 = (Directory.delete root job t).2 :=
    directory_delete root t job
  refine ⟨outcome_delete root t job, fun path hin htakes => ?_, fun hvisible => ?_, ?_, ?_,
    fun job' path hj' hne hin => ?_, fun job' hj' hne => ?_⟩
  · rw [hdelete, outcome_get]
    exact get_of_bare hready' hroot hj hgone hin htakes
  · rw [hdelete, outcome_holds, lift_eq_ok_iff]
    exact (holds_of_bare hroot hj hready' hgone).2 hvisible
  · obtain ⟨os, hos, hos'⟩ := listed_delete hroot hj h.neat h.distinct
    exact ⟨os, by rw [outcome_listOverviews, hos, lift],
      by rw [hdelete, outcome_listOverviews, hos', lift]⟩
  · rw [hdelete, outcome_get, outcome_get]
    exact get_overview_of_area hj hsame hroot
  · rw [hdelete, outcome_get, outcome_get]
    exact get_of_area hj hsame hroot hj' hne hin
  · rw [hdelete, outcome_holds, outcome_holds, holds_of_area hj hsame hroot hj' hne]

end Directory

namespace Database

variable {place : Place} {w : World} {t : Table} {c : Contents}

theorem get?_inTree {path : String} (hin : Job.InTree job path) :
    t.get? path = shelf job t path := by
  rw [shelf, if_pos hin.1, keyOf_inTree hin]

theorem Ready.listOverviews_eraseOwned (h : Ready t) (hj : Job.isId job) :
    Keyed.listOverviews (t.eraseOwned job) =
      (Keyed.listOverviews t).filter fun o => o.job ≠ job := by
  have hready' := h.eraseOwned job
  obtain ⟨hids, hascending⟩ := h.listed
  obtain ⟨hids', hascending'⟩ := hready'.listed
  refine filter_of_ascending hascending hascending' fun ⟨job', json⟩ => ?_
  by_cases he : job' = job
  · subst he
    simp [hready'.mem_listOverviews, Table.not_hasOwned_eraseOwned, Shelf.empty,
      hready'.shelf_eq_empty hj]
  -- of another job the same is listed, if that is a job at all
  rw [and_iff_left he]
  have hsame (hj' : Job.isId job') :
      ⟨job', json⟩ ∈ Keyed.listOverviews (t.eraseOwned job) ↔
        ⟨job', json⟩ ∈ Keyed.listOverviews t := by
    rw [hready'.mem_listOverviews, h.shelf_eraseOwned hj' he, ← h.mem_listOverviews]
  exact ⟨fun ho => (hsame (hids' ⟨job', json⟩ ho)).mp ho,
    fun ho => (hsame (hids ⟨job', json⟩ ho)).mpr ho⟩

/-- In a table every row says whose it is, so that deleting a job takes exactly its rows. -/
theorem Retains.deletes (h : Retains place c w) (hj : Job.isId job) (takes : String → Prop)
    (visible : Prop) : Deletes (database place) job takes visible w := by
  obtain ⟨t, hholds, hready, -⟩ := h
  have hdelete : Holds place ((database place).delete job w).2 (t.eraseOwned job) :=
    hholds.ask (.delete job)
  have hready' := hready.eraseOwned job
  have hnone : ¬ (t.eraseOwned job).hasOwned job := Table.not_hasOwned_eraseOwned
  refine ⟨?_, fun path hin _ => ?_, fun _ => ?_, ⟨Keyed.listOverviews t, ?_, ?_⟩, ?_,
    fun job' path hj' hne hin => ?_, fun job' hj' hne => ?_⟩
  · exact Answer.done.inj (answer_of_table hholds.table_eq (.delete job))
  · rw [hdelete.outcome_get, get?_inTree hin, hready'.shelf_eq_empty hj hnone, Shelf.empty]
  · rw [hdelete.outcome_holds, Bool.eq_false_iff.mpr hnone]
  · exact hholds.outcome_listOverviews
  · rw [hdelete.outcome_listOverviews, hready.listOverviews_eraseOwned hj]
  · rw [hdelete.outcome_get, hholds.outcome_get, hready.get?_eraseOwned]
  · rw [hdelete.outcome_get, hholds.outcome_get, get?_inTree hin, get?_inTree hin,
      hready.shelf_eraseOwned hj' hne]
  · -- a job is found by its rows, and these are left to it
    rw [hdelete.outcome_holds, hholds.outcome_holds]
    refine congrArg _ (Bool.eq_iff_iff.mpr ?_)
    rw [hready'.hasOwned_iff hj', hready.hasOwned_iff hj', hready.shelf_eraseOwned hj' hne]

end Database

end Store

namespace Site

open Files Store

variable {τ : Type} {base : Path} {config : Config.Storage} {s : Site τ} {uses : List Use}
  {job : String}

/-- In every state that a store of either kind can reach, deleting a job takes all that it has put,
and nothing else. -/
theorem deletion_exact (inUse : InUse base config s uses) (isId : Job.isId job) :
    Deletes (Site.store base config) job
      (fun path => config.backend = .files → Directory.Legible (root base config) path)
      (config.backend = .files →
        Tree.accept (Path.text (Directory.overviewFile (root base config) job)) = .ok ())
      (reached base config s uses) := by
  cases hbackend : config.backend with
  | files =>
    refine (acts_directory base hbackend).deletes ?_
    simpa [hbackend] using (inUse.orderly hbackend).deletes inUse.plainRoot isId
  | table =>
    refine (acts_database base hbackend).deletes ?_
    exact (inUse.retains hbackend).deletes isId _ _

/-- A job is deleted that has put a document and an overview, beside another one. -/
theorem deletes_firstJob : Deletes (Site.store [] inData) firstJob
    (fun path => inData.backend = .files → Directory.Legible (root [] inData) path)
    (inData.backend = .files →
      Tree.accept (Path.text (Directory.overviewFile (root [] inData) firstJob)) = .ok ())
    (reached [] inData vacant [.ask (.put firstJob (Job.root firstJob ++ "/a") "{}"),
      .ask (.put firstJob Job.overviewPath "{}"),
      .ask (.put "00000000000000000000000000000002" Job.overviewPath "{}"), .close]) := by
  have isId' : Job.isId "00000000000000000000000000000002" := by decide
  refine deletion_exact (inUse_vacant ?_) isId_firstJob
  simp [Use.AboutJobs, Request.AboutJobs, isId_firstJob, isId']

end Site

end ArchiveKeeper
