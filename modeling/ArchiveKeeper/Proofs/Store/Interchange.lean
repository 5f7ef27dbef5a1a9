import ArchiveKeeper.Proofs.Store.DatabaseService
import ArchiveKeeper.Proofs.Store.DirectoryService

namespace ArchiveKeeper.Store

open Files

variable {root : Path} {place : Database.Place} {t : Tree} {w : Database.World}

/-- From a reset on, either store gives the same answers to the same requests: about jobs, with
paths on which no directory has the name of a file, and within the limits of the file system. -/
theorem answers_directory_eq_database (hroot : ∀ s ∈ root, Path.IsPlain s) (sound : t.Sound)
    (files : ((directory root).reset t).1.outcome = .ok ())
    (table : ((database place).reset w).1.outcome = .ok ()) {requests : List Request}
    (proper : ∀ r ∈ requests, r.Proper) (allowed : ∀ r ∈ requests, Directory.Allows root r) :
    (directory root).answers t (.reset :: requests) =
      (database place).answers w (.reset :: requests) := by
  have hfiles : Directory.Keeping root .empty ((directory root).reset t).2 := by
    rw [Directory.directory_reset] at files ⊢
    have hok : Directory.reset root t = (.ok (), (Directory.reset root t).2) :=
      Prod.ext (Directory.lift_eq_ok_iff.mp files) rfl
    obtain ⟨hready, hempty⟩ := Directory.ready_reset hroot sound hok
    exact Directory.keeping_empty hready hempty
  have htable : Database.Keeping .empty ((database place).reset w).2 :=
    Database.keeping_empty (Database.opened_reset table)
  have hanswers := (directory_serves hroot).answers_eq (database_serves place) hfiles htable proper
    fun r hr => ⟨allowed r hr, trivial⟩
  rw [answers, answers, ask, ask, files, table, hanswers]

def sampleJob : String := "0000000000000000000000000000000a"

def sampleRequests : List Request :=
  [.put sampleJob Job.overviewPath "\x7b\x7d", .put sampleJob (Job.root sampleJob ++ "/plan") "null",
    .put sampleJob "/config" "null", .listOverviews, .get (Job.root sampleJob ++ "/plan"),
    .deleteOverview sampleJob, .holds sampleJob]

theorem proper_sampleRequests : ∀ r ∈ sampleRequests, r.Proper := by
  have hj : Job.isId sampleJob := by decide
  have ho : Job.owns sampleJob (Job.root sampleJob ++ "/plan") := by decide +kernel
  simp only [sampleRequests, List.forall_mem_cons, Request.Proper]
  exact ⟨hj, hj, hj, trivial, .inr ⟨sampleJob, hj, ho⟩, hj, hj, by simp⟩

theorem allows_sampleRequests : ∀ r ∈ sampleRequests, Directory.Allows ["data"] r := by
  have hclear : ∀ path ∈ [Job.overviewPath, Job.root sampleJob ++ "/plan", "/config"],
      Directory.Clear path := by
    unfold Directory.Clear
    decide +kernel
  have hoverview : Directory.target? ["data"] sampleJob Job.overviewPath =
      some ["data", "overviews", sampleJob ++ ".json"] := by decide +kernel
  have hplan : Directory.target? ["data"] sampleJob (Job.root sampleJob ++ "/plan") =
      some ["data", "jobs", sampleJob, "plan.json"] := by decide +kernel
  have hfile : Directory.documentFile? ["data"] (Job.root sampleJob ++ "/plan") =
      some ["data", "jobs", sampleJob, "plan.json"] := by decide +kernel
  have hconfig : ¬ Job.owns sampleJob "/config" := by decide +kernel
  simp only [sampleRequests, List.forall_mem_cons, Directory.Allows]
  refine ⟨⟨hclear _ (by simp), fun _ q hq => ?_⟩, ⟨hclear _ (by simp), fun _ q hq => ?_⟩,
    ⟨hclear _ (by simp), fun ho => absurd ho hconfig⟩, trivial, ⟨hclear _ (by simp), fun q hq => ?_⟩,
    trivial, by decide +kernel, by simp⟩
  · rw [← Option.some.inj (hoverview.symm.trans hq)]
    exact ⟨by decide +kernel, by decide +kernel, by decide +kernel, by decide +kernel⟩
  · rw [← Option.some.inj (hplan.symm.trans hq)]
    exact ⟨by decide +kernel, by decide +kernel, by decide +kernel, by decide +kernel⟩
  · rw [← Option.some.inj (hfile.symm.trans hq)]
    exact ⟨by decide +kernel, by decide +kernel⟩

/-- Both stores answer the requests alike. -/
theorem answers_sampleRequests : (directory ["data"]).answers .empty (.reset :: sampleRequests) =
    (database (.ofText [] Database.inMemory)).answers (.empty, .closed)
      (.reset :: sampleRequests) := by
  have hroot : ∀ s ∈ ["data"], Path.IsPlain s := by
    simp only [List.forall_mem_singleton]
    exact ⟨by decide, by decide⟩
  exact answers_directory_eq_database hroot Tree.sound_empty rfl rfl proper_sampleRequests
    allows_sampleRequests

end ArchiveKeeper.Store
