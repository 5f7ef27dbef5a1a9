import ArchiveKeeper.Proofs.Store.Keys
import ArchiveKeeper.Proofs.Store.Reached

namespace ArchiveKeeper.Store.Directory

open Files Files.Path

variable {root file : Path} {job path : String}

/-- The document of a job itself stands beside the directory of the job, and all others are strictly
below that directory. -/
theorem place_of_inTree (hj : Job.isId job) (h : Job.InTree job path) (root : Path) :
    ∃ file, documentFile? root path = some file ∧ Place root job file ∧
      (path = Job.root job ∧ file = jobs root ++ [job ++ ending] ∨
        path ≠ Job.root job ∧ jobs root ++ [job] <+: file ∧ file ≠ jobs root ++ [job]) := by
  obtain ⟨file, htarget, hplace⟩ := target?_of_owns hj h.1 root
  obtain ⟨dirs, name, parts, htarget', hpath, -, hdn⟩ := target?_of_inTree hj h root
  obtain rfl : jobs root ++ dirs ++ [name ++ ending] = file :=
    Option.some.inj (htarget'.symm.trans htarget)
  rw [target?_eq_documentFile? h] at htarget
  refine ⟨_, htarget, hplace, ?_⟩
  have hroot : (Job.root job).toList = ["jobs", job].flatMap fun s => '/' :: s.toList := by
    simp [Job.root, String.toList_append]
  cases dirs with
  | nil =>
    obtain ⟨rfl, -⟩ := List.cons.inj hdn
    exact .inl ⟨String.toList_injective (hpath.trans hroot.symm), by rw [List.append_nil]⟩
  | cons d dirs =>
    obtain ⟨rfl, -⟩ := List.cons.inj hdn
    refine .inr ⟨?_, ⟨dirs ++ [name ++ ending], by simp⟩, by simp⟩
    -- the path goes on behind the job
    rintro rfl
    rw [hroot] at hpath
    simp at hpath

/-- A document of a job has a file of its own, among what the deletion of the job takes away. -/
structure Filed (root : Path) (job path : String) (file : Path) : Prop where
  found : documentFile? root path = some file
  place : path = Job.root job ∧ file = jobs root ++ [job ++ ending] ∨
    path ≠ Job.root job ∧ jobs root ++ [job] <+: file ∧ file ≠ jobs root ++ [job]
  /-- A text that is put is written to the file; only the system can refuse it. -/
  put : ∀ json t, Directory.put root job path json t =
    (lift (replaceFile t file json).1, (replaceFile t file json).2)
  unrefused : ∀ json t e, (Directory.put root job path json t).1 = .error e →
    ∃ fault, e = .system fault
  owner : ∀ job', Job.isId job' → Job.owns job' path → job' = job
  alone : ∀ job' path', Job.isId job' → Job.owns job' path' → path' ≠ Job.overviewPath →
    documentFile? root path' = some file → path' = path
  deleted : (∀ s ∈ root, IsPlain s) → ∀ t, Ready root t →
    (Directory.delete root job t).2.node? file = none
  spared : (∀ s ∈ root, IsPlain s) → ∀ t, Ready root t → ∀ job', Job.isId job' → job' ≠ job →
    (Directory.delete root job' t).2.node? file = t.node? file

theorem trees_disjoint (isId : Job.isId job) (owns : Job.owns job path)
    (document : path ≠ Job.overviewPath) (root : Path) : ∃ file, Filed root job path file := by
  have hin : Job.InTree job path := ⟨owns, document⟩
  obtain ⟨file, hfile, hplace, hwhere⟩ := place_of_inTree isId hin root
  have hput (json : String) (t : Tree) : Directory.put root job path json t =
      (lift (replaceFile t file json).1, (replaceFile t file json).2) := by
    obtain ⟨q, htarget, -, hput⟩ := put_of_owns root json t isId owns
    rw [target?_eq_documentFile? hin, hfile, Option.some.injEq] at htarget
    rwa [htarget]
  refine ⟨file, ?_⟩
  constructor
  case found => exact hfile
  case place => exact hwhere
  case put => exact hput
  case unrefused =>
    intro json t e he
    rw [hput] at he
    cases hr : (replaceFile t file json).1 with
    | ok u => simp [hr, lift] at he
    | error fault => exact ⟨fault, by simpa [hr, lift, eq_comm] using he⟩
  case owner => exact fun job' isId' owns' => Job.InTree.job_eq isId' isId ⟨owns', document⟩ hin
  case alone =>
    intro job' path' isId' owns' document' hfile'
    have hkey : IsKey (fun _ _ => True) path :=
      Database.keyOf_inTree hin ▸ .filed isId owns trivial
    have hkey' : IsKey (fun _ _ => True) path' :=
      Database.keyOf_inTree ⟨owns', document'⟩ ▸ .filed isId' owns' trivial
    exact eq_of_isKey hkey' hkey (hfile'.trans hfile.symm)
  case deleted =>
    intro hroot t hready
    exact (ready_delete hroot isId hready).2.2 file hplace.area
  case spared =>
    intro hroot t hready job' isId' hne
    exact (ready_delete hroot isId' hready).2.1 file fun ha => hne (ha.job_eq isId' isId hplace.area)

/-- Names that end like files, or that are dots and more, are names like others. -/
theorem trees_disjoint_dotted : ∃ file,
    Filed ["srv"] Site.firstJob (Job.root Site.firstJob ++ "/a.json/...") file ∧
      file = ["srv", "jobs", Site.firstJob, "a.json", "....json"] := by
  have owns : Job.owns Site.firstJob (Job.root Site.firstJob ++ "/a.json/...") := by decide
  obtain ⟨file, hfiled⟩ := trees_disjoint Site.isId_firstJob owns (by decide) ["srv"]
  have hfile : documentFile? ["srv"] (Job.root Site.firstJob ++ "/a.json/...") =
      some ["srv", "jobs", Site.firstJob, "a.json", "....json"] := by decide +kernel
  exact ⟨file, hfiled, Option.some.inj (hfiled.found.symm.trans hfile)⟩

end ArchiveKeeper.Store.Directory
